import Kappai.Spec.Scheduler
import Mathlib.Data.List.Perm.Basic
import Mathlib.Data.List.Sublists

/-! The invariant of the scheduler, in parts: who is owed an answer, which slots are taken, and
what the lock and the stop allow. -/

namespace Kappai

variable {J : Type*}

/-- The job the worker has taken out of the queue and not yet started. -/
def WorkerPc.hand : WorkerPc J → List J
  | .start j | .pushBack j | .pushFront j | .failing j => [j]
  | _ => []

/-- The task whose answer is out while it is still in the list. -/
def WorkerPc.ended : WorkerPc J → Option ℕ
  | .answered i | .released i => some i
  | _ => none

/-- The jobs of the tasks that have not answered. -/
def unanswered (tasks : List (OaTask J)) : Option ℕ → List J
  | some i => (tasks.eraseIdx i).map OaTask.job
  | none => tasks.map OaTask.job

section Accounts

variable [DecidableEq J]

/-- The accepted jobs are those owed an answer and those with exactly one. -/
structure Accounted (accepted owed : List J) (sets : J → ℕ) : Prop where
  nodup : owed.Nodup
  accepted_of_owed : ∀ j ∈ owed, j ∈ accepted
  sets_eq : ∀ j, sets j = if j ∈ accepted ∧ j ∉ owed then 1 else 0

namespace Accounted

variable {accepted owed owed' : List J} {sets : J → ℕ} {j : J}

theorem perm (h : Accounted accepted owed sets) (hp : owed.Perm owed') :
    Accounted accepted owed' sets where
  nodup := hp.nodup_iff.mp h.nodup
  accepted_of_owed := fun j hj => h.accepted_of_owed j (hp.mem_iff.mpr hj)
  sets_eq := fun j => by simp only [h.sets_eq, hp.mem_iff]

theorem push (h : Accounted accepted owed sets) (hj : j ∉ accepted) :
    Accounted (accepted ++ [j]) (j :: owed) sets where
  nodup := List.nodup_cons.mpr ⟨fun ho => hj (h.accepted_of_owed j ho), h.nodup⟩
  accepted_of_owed := by
    intro k hk
    rcases List.mem_cons.mp hk with rfl | hk
    · simp
    · exact List.mem_append_left _ (h.accepted_of_owed k hk)
  sets_eq := by
    intro k
    rw [h.sets_eq]
    by_cases hk : k = j
    · subst hk
      simp [hj]
    · simp [hk]

theorem answer (h : Accounted accepted (j :: owed) sets) :
    Accounted accepted owed (Function.update sets j (sets j + 1)) where
  nodup := (List.nodup_cons.mp h.nodup).2
  accepted_of_owed := fun k hk => h.accepted_of_owed k (List.mem_cons_of_mem _ hk)
  sets_eq := by
    intro k
    by_cases hk : k = j
    · subst hk
      have hacc : k ∈ accepted := h.accepted_of_owed k List.mem_cons_self
      have howed : k ∉ owed := (List.nodup_cons.mp h.nodup).1
      simp [h.sets_eq, hacc, howed]
    · simp [h.sets_eq, hk]

theorem sets_zero (h : Accounted accepted owed sets) (hj : j ∈ owed) : sets j = 0 := by
  rw [h.sets_eq, if_neg fun hn => hn.2 hj]

theorem sets_one (h : Accounted accepted owed sets) (hacc : j ∈ accepted) (hj : j ∉ owed) :
    sets j = 1 := by
  rw [h.sets_eq, if_pos ⟨hacc, hj⟩]

theorem sets_le_one (h : Accounted accepted owed sets) (j : J) : sets j ≤ 1 := by
  rw [h.sets_eq]
  split_ifs <;> omega

end Accounted

end Accounts

theorem swapRemove_perm {α : Type*} {l : List α} {i : ℕ} (hi : i < l.length) :
    (Scheduler.swapRemove l i).Perm (l.eraseIdx i) := by
  rcases List.eq_nil_or_concat l with rfl | ⟨init, a, rfl⟩
  · simp at hi
  · simp only [List.concat_eq_append, List.length_append, List.length_singleton] at hi
    simp only [Scheduler.swapRemove, List.concat_eq_append, List.getLast?_append,
      List.getLast?_singleton, Option.some_or]
    rcases Nat.lt_or_ge i init.length with hlt | hge
    · rw [List.set_append_left _ _ hlt, List.dropLast_concat, List.eraseIdx_append_of_lt_length hlt]
      exact (List.set_perm_cons_eraseIdx hlt a).trans
        (List.perm_append_singleton a (init.eraseIdx i)).symm
    · obtain rfl : i = init.length := by omega
      simp [List.eraseIdx_append_of_length_le]

theorem map_set_of_eq {α β : Type*} {f : α → β} {l : List α} {i : ℕ} {a b : α}
    (ha : l[i]? = some a) (hf : f b = f a) : (l.set i b).map f = l.map f := by
  apply List.ext_getElem?
  intro k
  rw [List.getElem?_map, List.getElem?_map, List.getElem?_set]
  by_cases hik : i = k
  · subst hik
    obtain ⟨hi, hget⟩ := List.getElem?_eq_some_iff.mp ha
    simp [hget, hf, hi]
  · simp [hik]

section Invariant

variable [DecidableEq J]

/-- Every accepted job is in the queue `q`, in the worker's hand, in a task that has not answered,
or answered once; and they leave the queue in the order they came. -/
structure Ledger (s : Scheduler J) (q : List J) : Prop where
  accounts : Accounted s.accepted
    (q ++ (s.worker.hand ++ unanswered s.tasks s.worker.ended)) s.doneSets
  distinct : s.accepted.Nodup
  order : (s.started ++ (s.worker.hand ++ q)).Sublist s.accepted
  flag : ∀ j, s.generationDone j = true ↔ 0 < s.doneSets j

/-- Every task has a slot of its own, and that slot is busy. -/
structure Seats (s : Scheduler J) : Prop where
  slots : (s.tasks.map OaTask.slot).Nodup
  busy : ∀ k t, s.tasks[k]? = some t →
    s.worker = .released k ∨ (t.slot < s.nSlots ∧ s.busy t.slot = true)
  ended : ∀ i, s.worker.ended = some i → i < s.tasks.length

/-- What the lock and the stop allow. -/
structure Guards (s : Scheduler J) (q : List J) : Prop where
  chained : Chained s.queue.next s.queue.head q
  tail : s.stopper ≠ .cancelling → s.queue.tail = q.getLast?
  stopper : s.schMtx = .stopper ↔ s.stopper = .cancelling
  worker : s.schMtx = .worker ↔ ∃ j, s.worker = .pushFront j
  conn : ∀ j, s.schMtx = .conn j → j ∉ s.accepted
  shutting : s.stopper ≠ .idle → s.shuttingDown = true
  exited : s.worker = .exited → s.tasks = [] ∧ s.shuttingDown = true
  drained : s.stopper = .stopped ∨ s.stopper = .freed →
    q = [] ∧ s.schMtx = .free ∧ s.worker ≠ .asleep
  joined : s.stopper = .freed → s.worker = .exited

structure SchedInv (s : Scheduler J) (q : List J) : Prop where
  ledger : Ledger s q
  seats : Seats s
  guards : Guards s q

variable {s : Scheduler J} {q : List J} {j : J}

theorem schedInv_init (decision : J → Bool) (slotsCap : ℕ) :
    SchedInv (Scheduler.init decision slotsCap) [] where
  ledger := ⟨⟨List.nodup_nil, by simp [Scheduler.init, WorkerPc.hand, WorkerPc.ended, unanswered],
    by simp [Scheduler.init]⟩, List.nodup_nil, List.Sublist.refl _, by simp [Scheduler.init]⟩
  seats := ⟨List.nodup_nil, by simp [Scheduler.init], by simp [Scheduler.init, WorkerPc.ended]⟩
  guards := by constructor <;> simp [Scheduler.init, LinkedQueue.empty, Chained]

namespace SchedInv

theorem queue_nodup (h : SchedInv s q) : q.Nodup :=
  (List.nodup_append.mp h.ledger.accounts.nodup).1

theorem holds (h : SchedInv s q) (hs : s.stopper ≠ .cancelling) : s.queue.Holds q :=
  ⟨h.guards.chained, h.guards.tail hs, h.queue_nodup⟩

/-- The worker goes on without taking or giving up a job. -/
theorem move (h : SchedInv s q) (w : WorkerPc J) (hhand : w.hand = s.worker.hand)
    (hended : w.ended = s.worker.ended) (hrel : ∀ k, s.worker = .released k → w = .released k)
    (hpush : (∃ j, w = .pushFront j) ↔ ∃ j, s.worker = .pushFront j)
    (hasleep : w = .asleep → s.shuttingDown = false)
    (hexit : w = .exited → s.tasks = [] ∧ s.shuttingDown = true) (hne : s.worker ≠ .exited) :
    SchedInv { s with worker := w } q where
  ledger := by
    refine ⟨?_, h.ledger.distinct, ?_, h.ledger.flag⟩
    · simpa only [hhand, hended] using h.ledger.accounts
    · simpa only [hhand] using h.ledger.order
  seats := by
    refine ⟨h.seats.slots, ?_, ?_⟩
    · intro k t ht
      exact (h.seats.busy k t ht).imp_left (hrel k)
    · intro i hi
      exact h.seats.ended i (hended ▸ hi)
  guards := by
    obtain ⟨hch, htail, hstop, hwork, hconn, hshut, -, hdrain, hjoin⟩ := h.guards
    refine ⟨hch, htail, hstop, hwork.trans hpush.symm, hconn, hshut, hexit, ?_, ?_⟩
    · intro (hs : s.stopper = .stopped ∨ s.stopper = .freed)
      obtain ⟨hq, hfree, -⟩ := hdrain hs
      refine ⟨hq, hfree, fun hw => ?_⟩
      have hsd : s.shuttingDown = true := hshut (by rcases hs with hs | hs <;> simp [hs])
      rw [hasleep hw] at hsd
      cases hsd
    · intro hs
      exact absurd (hjoin hs) hne

theorem signal (h : SchedInv s q) : SchedInv s.signal q := by
  unfold Scheduler.signal
  split_ifs with hw
  · exact h.move .top (by rw [hw]; rfl) (by rw [hw]; rfl) (by simp [hw]) (by simp [hw]) (by simp)
      (by simp) (by simp [hw])
  · exact h

/-! Each act keeps the invariant, for the queue it leaves. -/

theorem pushLock (h : SchedInv s q) (hfree : s.schMtx = .free) (hj : j ∉ s.accepted)
    (hsd : s.shuttingDown = false) : SchedInv { s with schMtx := .conn j } q where
  ledger := ⟨h.ledger.accounts, h.ledger.distinct, h.ledger.order, h.ledger.flag⟩
  seats := ⟨h.seats.slots, h.seats.busy, h.seats.ended⟩
  guards := by
    obtain ⟨hch, htail, hstop, hwork, -, hshut, hexit, -, hjoin⟩ := h.guards
    have hidle : s.stopper = .idle := by
      by_contra hne
      rw [hshut hne] at hsd
      cases hsd
    refine ⟨hch, htail, ?_, ?_, ?_, hshut, hexit, ?_, hjoin⟩
    · simp [hidle]
    · rw [hfree] at hwork
      simpa using hwork
    · rintro k hk
      obtain rfl : j = k := by simpa using hk
      exact hj
    · simp [hidle]

theorem pushAppend (h : SchedInv s q) (hm : s.schMtx = .conn j) :
    SchedInv { s with
      queue := s.queue.pushBack j
      accepted := s.accepted ++ [j]
      schMtx := .free } (q ++ [j]) := by
  have hj : j ∉ s.accepted := h.guards.conn j hm
  have hjq : j ∉ q := fun hq =>
    hj (h.ledger.accounts.accepted_of_owed j (List.mem_append_left _ hq))
  have hnc : s.stopper ≠ .cancelling := by
    rw [Ne, ← h.guards.stopper, hm]
    simp
  have hq := (h.holds hnc).pushBack hjq
  refine ⟨⟨?_, ?_, ?_, h.ledger.flag⟩, ⟨h.seats.slots, h.seats.busy, h.seats.ended⟩, ?_⟩
  · refine (h.ledger.accounts.push hj).perm ?_
    rw [List.append_assoc, List.singleton_append]
    exact List.perm_middle.symm
  · refine List.nodup_append.mpr ⟨h.ledger.distinct, List.nodup_singleton j, ?_⟩
    intro a ha b hb hab
    obtain rfl : b = j := by simpa using hb
    exact hj (hab ▸ ha)
  · have horder := h.ledger.order.append (List.Sublist.refl [j])
    simpa only [List.append_assoc] using horder
  · obtain ⟨-, -, hstop, hwork, -, hshut, hexit, hdrain, hjoin⟩ := h.guards
    refine ⟨hq.chained, fun _ => hq.tail, ?_, ?_, by simp, hshut, hexit, ?_, hjoin⟩
    · rw [hm] at hstop
      simpa using hstop
    · rw [hm] at hwork
      simpa using hwork
    · intro hs
      obtain ⟨-, hfree, -⟩ := hdrain hs
      rw [hm] at hfree
      cases hfree

theorem popHead (h : SchedInv s q) (hw : s.worker = .pop) (hfree : s.schMtx = .free)
    (hj : s.queue.head = some j) :
    ∃ q', q = j :: q' ∧
      SchedInv { s with queue := s.queue.popFront j, worker := .start j } q' := by
  have hnc : s.stopper ≠ .cancelling := by
    rw [Ne, ← h.guards.stopper, hfree]
    simp
  have hq := h.holds hnc
  cases q with
  | nil => exact absurd (hj.symm.trans hq.chained) (by simp)
  | cons k q' =>
    obtain rfl : j = k := Option.some.inj (hj.symm.trans hq.chained.1)
    refine ⟨q', rfl, ⟨?_, h.ledger.distinct, ?_, h.ledger.flag⟩,
      ⟨h.seats.slots, ?_, by simp [WorkerPc.ended]⟩, ?_⟩
    · refine h.ledger.accounts.perm ?_
      simp only [hw, WorkerPc.hand, WorkerPc.ended, List.nil_append, List.cons_append]
      exact List.perm_middle.symm
    · simpa [hw, WorkerPc.hand] using h.ledger.order
    · intro k t ht
      exact Or.inr ((h.seats.busy k t ht).resolve_left (by simp [hw]))
    · obtain ⟨-, -, hstop, hwork, hconn, hshut, -, hdrain, hjoin⟩ := h.guards
      have hpop := hq.popFront
      refine ⟨hpop.chained, fun _ => hpop.tail, hstop, ?_, hconn, hshut, by simp, ?_, ?_⟩
      · simp [hfree]
      · intro hs
        cases (hdrain hs).1
      · intro hs
        cases hw.symm.trans (hjoin hs)

/-- A job in the worker's hand is answered. -/
theorem failHand (h : SchedInv s q) (hhand : s.worker.hand = [j]) (hended : s.worker.ended = none)
    (hpush : ∀ k, s.worker ≠ .pushFront k) (w : WorkerPc J) (hwh : w.hand = [])
    (hwe : w.ended = none) (hasleep : w ≠ .asleep) (hexit : w ≠ .exited) :
    SchedInv { s.failJob j with worker := w } q := by
  have hwp : ∀ k, w ≠ .pushFront k := by
    rintro k rfl
    simp [WorkerPc.hand] at hwh
  have hacc : Accounted s.accepted (j :: (q ++ unanswered s.tasks none)) s.doneSets := by
    refine h.ledger.accounts.perm ?_
    simp only [hhand, hended, List.singleton_append]
    exact List.perm_middle
  refine ⟨⟨?_, h.ledger.distinct, ?_, ?_⟩, ⟨h.seats.slots, ?_, by simp [hwe]⟩, ?_⟩
  · simpa [hwh, hwe, Scheduler.failJob, Scheduler.setDone] using hacc.answer
  · refine List.Sublist.trans ?_ h.ledger.order
    simp only [hwh, hhand, List.nil_append]
    exact (List.Sublist.refl _).append (List.sublist_append_right _ _)
  · intro k
    simp only [Scheduler.failJob, Scheduler.setDone]
    by_cases hk : k = j
    · subst hk
      simp
    · simp only [Function.update_of_ne hk, h.ledger.flag]
  · intro k t ht
    refine Or.inr ((h.seats.busy k t ht).resolve_left fun hr => ?_)
    simp [hr, WorkerPc.ended] at hended
  · obtain ⟨hch, htail, hstop, hwork, hconn, hshut, -, hdrain, hjoin⟩ := h.guards
    refine ⟨hch, htail, hstop, ?_, hconn, hshut, fun hw => absurd hw hexit, ?_, ?_⟩
    · exact hwork.trans ⟨fun ⟨k, hk⟩ => absurd hk (hpush k), fun ⟨k, hk⟩ => absurd hk (hwp k)⟩
    · intro hs
      exact ⟨(hdrain hs).1, (hdrain hs).2.1, hasleep⟩
    · intro hs
      simp [hjoin hs, WorkerPc.hand] at hhand

theorem withSlots (h : SchedInv s q) {n : ℕ} {b : ℕ → Bool} (hn : s.nSlots ≤ n)
    (hb : ∀ i < s.nSlots, b i = s.busy i) :
    SchedInv { s with nSlots := n, busy := b } q where
  ledger := ⟨h.ledger.accounts, h.ledger.distinct, h.ledger.order, h.ledger.flag⟩
  seats := by
    refine ⟨h.seats.slots, ?_, h.seats.ended⟩
    intro k t ht
    refine (h.seats.busy k t ht).imp_right fun hs => ⟨Nat.lt_of_lt_of_le hs.1 hn, ?_⟩
    exact (hb _ hs.1).trans hs.2
  guards := by
    obtain ⟨hch, htail, hstop, hwork, hconn, hshut, hexit, hdrain, hjoin⟩ := h.guards
    exact ⟨hch, htail, hstop, hwork, hconn, hshut, hexit, hdrain, hjoin⟩

/-- A picked slot is one of the slots, idle, and so no task's. -/
theorem jobPickSlot_spec (h : SchedInv s q) (hended : s.worker.ended = none) {c : SlotChoice}
    (hc : s.Candidates c) :
    ∃ n b, (s.jobPickSlot c).1 = { s with nSlots := n, busy := b } ∧
      SchedInv { s with nSlots := n, busy := b } q ∧
      ∀ slot ∈ (s.jobPickSlot c).2, slot < n ∧ slot ∉ s.tasks.map OaTask.slot := by
  have htask : ∀ slot ∈ s.tasks.map OaTask.slot, slot < s.nSlots ∧ s.busy slot = true := by
    intro slot hslot
    obtain ⟨t, ht, rfl⟩ := List.mem_map.mp hslot
    obtain ⟨k, hk⟩ := List.mem_iff_getElem?.mp ht
    refine (h.seats.busy k t hk).resolve_left fun hr => ?_
    simp [hr, WorkerPc.ended] at hended
  have hidle : ∀ slot, s.Idle slot → slot < s.nSlots ∧ slot ∉ s.tasks.map OaTask.slot := by
    intro slot hs
    refine ⟨hs.1, fun hmem => ?_⟩
    cases hs.2.symm.trans (htask slot hmem).2
  unfold Scheduler.jobPickSlot
  cases hbest : c.best with
  | some i =>
    refine ⟨s.nSlots, s.busy, rfl, h, fun slot hslot => ?_⟩
    obtain rfl : i = slot := Option.mem_some_iff.mp hslot
    exact hidle i (hc.1 i hbest)
  | none =>
    dsimp only
    split_ifs with hfresh
    · refine ⟨_, _, rfl, h.withSlots (Nat.le_succ _) ?_, fun slot hslot => ?_⟩
      · intro i hi
        exact Function.update_of_ne (Nat.ne_of_lt hi) _ _
      · obtain rfl : s.nSlots = slot := Option.mem_some_iff.mp hslot
        exact ⟨Nat.lt_succ_self _, fun hmem => Nat.lt_irrefl _ (htask _ hmem).1⟩
    · exact ⟨s.nSlots, s.busy, rfl, h, fun slot hslot => hidle slot (hc.2.1 slot hslot)⟩

/-- The popped job gets a slot of its own and its task. -/
theorem addTask (h : SchedInv s q) (hw : s.worker = .start j) {slot : ℕ} (hlt : slot < s.nSlots)
    (hslot : slot ∉ s.tasks.map OaTask.slot) :
    SchedInv { s with
      busy := Function.update s.busy slot true
      tasks := s.tasks ++ [⟨j, slot, false⟩]
      started := s.started ++ [j]
      worker := .admitJobs } q := by
  refine ⟨⟨?_, h.ledger.distinct, ?_, h.ledger.flag⟩, ⟨?_, ?_, by simp [WorkerPc.ended]⟩, ?_⟩
  · refine h.ledger.accounts.perm ?_
    simp only [hw, WorkerPc.hand, WorkerPc.ended, unanswered, List.nil_append, List.map_append,
      List.map_cons, List.map_nil]
    exact (List.perm_append_comm).append_left q
  · have horder := h.ledger.order
    simpa [hw, WorkerPc.hand] using horder
  · rw [List.map_append, List.nodup_append]
    refine ⟨h.seats.slots, List.nodup_singleton _, ?_⟩
    intro a ha b hb hab
    obtain rfl : b = slot := by simpa using hb
    exact hslot (hab ▸ ha)
  · intro k t ht
    refine Or.inr ?_
    rw [List.getElem?_append] at ht
    split_ifs at ht with hk
    · have hold := (h.seats.busy k t ht).resolve_left (by simp [hw])
      have hne : t.slot ≠ slot := fun he =>
        hslot (List.mem_map.mpr ⟨t, List.mem_of_getElem? ht, he⟩)
      exact ⟨hold.1, (Function.update_of_ne hne _ _).trans hold.2⟩
    · obtain rfl : t = ⟨j, slot, false⟩ := by
        have hmem := List.mem_of_getElem? ht
        simpa using hmem
      exact ⟨hlt, Function.update_self ..⟩
  · obtain ⟨hch, htail, hstop, hwork, hconn, hshut, -, hdrain, hjoin⟩ := h.guards
    refine ⟨hch, htail, hstop, ?_, hconn, hshut, by simp, ?_, ?_⟩
    · simpa [hw] using hwork
    · intro hs
      exact ⟨(hdrain hs).1, (hdrain hs).2.1, by simp⟩
    · intro hs
      cases hw.symm.trans (hjoin hs)

theorem taskStart (h : SchedInv s q) (hw : s.worker = .start j) {c : SlotChoice}
    (hc : s.Candidates c) (created : Bool) : SchedInv (s.taskStart j c created) q := by
  obtain ⟨n, b, heq, hinv, hslot⟩ := h.jobPickSlot_spec (by rw [hw]; rfl) hc
  have hfail : SchedInv { Scheduler.failJob { s with nSlots := n, busy := b } j with
      worker := .admitJobs } q :=
    hinv.failHand (by simp [hw, WorkerPc.hand]) (by simp [hw, WorkerPc.ended]) (by simp [hw])
      .admitJobs rfl rfl (by simp) (by simp)
  unfold Scheduler.taskStart
  generalize s.jobPickSlot c = pick at heq hslot
  obtain ⟨s₁, slot⟩ := pick
  obtain rfl : s₁ = { s with nSlots := n, busy := b } := heq
  cases slot with
  | none =>
    dsimp only
    split_ifs
    · exact hinv.move (.pushBack j) (by simp [hw, WorkerPc.hand]) (by simp [hw, WorkerPc.ended])
        (by simp [hw]) (by simp [hw]) (by simp) (by simp) (by simp [hw])
    · exact hfail
  | some slot =>
    obtain ⟨hlt, hnew⟩ := hslot slot rfl
    dsimp only
    split_ifs
    · exact hinv.addTask hw hlt hnew
    · exact hfail

theorem pushBackLock (h : SchedInv s q) (hw : s.worker = .pushBack j)
    (hsd : s.shuttingDown = false) :
    SchedInv { s with schMtx := .worker, worker := .pushFront j } q where
  ledger := by
    refine ⟨?_, h.ledger.distinct, ?_, h.ledger.flag⟩
    · simpa only [hw, WorkerPc.hand, WorkerPc.ended] using h.ledger.accounts
    · simpa only [hw, WorkerPc.hand] using h.ledger.order
  seats := by
    refine ⟨h.seats.slots, ?_, by simp [WorkerPc.ended]⟩
    intro k t ht
    exact Or.inr ((h.seats.busy k t ht).resolve_left (by simp [hw]))
  guards := by
    obtain ⟨hch, htail, hstop, -, -, hshut, -, -, -⟩ := h.guards
    have hidle : s.stopper = .idle := by
      by_contra hne
      rw [hshut hne] at hsd
      cases hsd
    refine ⟨hch, htail, ?_, ?_, by simp, hshut, by simp, ?_, ?_⟩
    · simp [hidle]
    · simp
    · simp [hidle]
    · simp [hidle]

theorem pushFront (h : SchedInv s q) (hw : s.worker = .pushFront j) :
    SchedInv { s with
      queue := s.queue.pushFront j
      schMtx := .free
      worker := .resume 0 } (j :: q) := by
  have hm : s.schMtx = .worker := h.guards.worker.mpr ⟨j, hw⟩
  have hnc : s.stopper ≠ .cancelling := by
    rw [Ne, ← h.guards.stopper, hm]
    simp
  have hacc : Accounted s.accepted (j :: (q ++ unanswered s.tasks none)) s.doneSets := by
    refine h.ledger.accounts.perm ?_
    simp only [hw, WorkerPc.hand, WorkerPc.ended, List.singleton_append]
    exact List.perm_middle
  have hjq : j ∉ q := fun hq =>
    (List.nodup_cons.mp hacc.nodup).1 (List.mem_append_left _ hq)
  have hq := (h.holds hnc).pushFront hjq
  refine ⟨⟨?_, h.ledger.distinct, ?_, h.ledger.flag⟩,
    ⟨h.seats.slots, ?_, by simp [WorkerPc.ended]⟩, ?_⟩
  · simpa [WorkerPc.hand, WorkerPc.ended] using hacc
  · simpa [hw, WorkerPc.hand] using h.ledger.order
  · intro k t ht
    exact Or.inr ((h.seats.busy k t ht).resolve_left (by simp [hw]))
  · obtain ⟨-, -, hstop, -, -, hshut, -, hdrain, hjoin⟩ := h.guards
    refine ⟨hq.chained, fun _ => hq.tail, ?_, by simp, by simp, hshut, by simp, ?_, ?_⟩
    · rw [hm] at hstop
      simpa using hstop
    · intro hs
      have hfree := (hdrain hs).2.1
      rw [hm] at hfree
      cases hfree
    · intro hs
      cases hw.symm.trans (hjoin hs)

theorem doneSets_eq_zero (h : SchedInv s q) {t : OaTask J} (hended : s.worker.ended = none)
    (ht : t ∈ s.tasks) : s.doneSets t.job = 0 := by
  refine h.ledger.accounts.sets_zero (List.mem_append_right _ (List.mem_append_right _ ?_))
  rw [hended]
  exact List.mem_map_of_mem ht

/-- `run_generation` opens `generation_done` of a task that has not answered. -/
theorem reopen (h : SchedInv s q) (hj : s.doneSets j = 0) : SchedInv (s.setDone j false) q := by
  have hsets : (s.setDone j false).doneSets = s.doneSets := by
    simp [Scheduler.setDone]
  refine ⟨⟨?_, h.ledger.distinct, h.ledger.order, ?_⟩,
    ⟨h.seats.slots, h.seats.busy, h.seats.ended⟩, ?_⟩
  · rw [hsets]
    exact h.ledger.accounts
  · intro k
    rw [hsets]
    by_cases hk : k = j
    · subst hk
      simp [Scheduler.setDone, hj]
    · simp only [Scheduler.setDone, Function.update_of_ne hk, h.ledger.flag]
  · obtain ⟨hch, htail, hstop, hwork, hconn, hshut, hexit, hdrain, hjoin⟩ := h.guards
    exact ⟨hch, htail, hstop, hwork, hconn, hshut, hexit, hdrain, hjoin⟩

theorem markEntered (h : SchedInv s q) {i : ℕ} {t : OaTask J} (hw : s.worker = .resume i)
    (ht : s.tasks[i]? = some t) :
    SchedInv { s with tasks := s.tasks.set i { t with entered := true } } q := by
  have hjobs := map_set_of_eq (f := OaTask.job) (b := { t with entered := true }) ht rfl
  have hslots := map_set_of_eq (f := OaTask.slot) (b := { t with entered := true }) ht rfl
  refine ⟨⟨?_, h.ledger.distinct, h.ledger.order, h.ledger.flag⟩, ⟨?_, ?_, ?_⟩, ?_⟩
  · have hacc := h.ledger.accounts
    simp only [hw, WorkerPc.ended, unanswered] at hacc ⊢
    rwa [hjobs]
  · rw [hslots]
    exact h.seats.slots
  · intro k u hu
    refine Or.inr ?_
    rw [List.getElem?_set] at hu
    split_ifs at hu with hik
    · obtain rfl := Option.some.inj hu
      exact (h.seats.busy i t ht).resolve_left (by simp [hw])
    · exact (h.seats.busy k u hu).resolve_left (by simp [hw])
  · intro k hk
    simp [hw, WorkerPc.ended] at hk
  · obtain ⟨hch, htail, hstop, hwork, hconn, hshut, -, hdrain, hjoin⟩ := h.guards
    exact ⟨hch, htail, hstop, hwork, hconn, hshut, fun hx => absurd hx (by simp [hw]), hdrain,
      hjoin⟩

/-- The task at `i` sets `generation_done`. -/
theorem answerTask (h : SchedInv s q) {i : ℕ} {t : OaTask J} (hw : s.worker = .resume i)
    (ht : s.tasks[i]? = some t) :
    SchedInv { s.setDone t.job true with worker := .answered i } q := by
  obtain ⟨hi, hget⟩ := List.getElem?_eq_some_iff.mp ht
  have hperm : (t :: s.tasks.eraseIdx i).Perm s.tasks := by
    rw [← hget]
    exact List.getElem_cons_eraseIdx_perm hi
  have hacc : Accounted s.accepted (t.job :: (q ++ unanswered s.tasks (some i))) s.doneSets := by
    refine h.ledger.accounts.perm ?_
    simp only [hw, WorkerPc.hand, WorkerPc.ended, unanswered, List.nil_append]
    exact ((hperm.map OaTask.job).symm.append_left q).trans List.perm_middle
  refine ⟨⟨?_, h.ledger.distinct, ?_, ?_⟩, ⟨h.seats.slots, ?_, ?_⟩, ?_⟩
  · simpa [WorkerPc.hand, WorkerPc.ended, Scheduler.setDone] using hacc.answer
  · have horder := h.ledger.order
    rwa [hw] at horder
  · intro k
    simp only [Scheduler.setDone]
    by_cases hk : k = t.job
    · subst hk
      simp
    · simp only [Function.update_of_ne hk, h.ledger.flag]
  · intro k u hu
    exact Or.inr ((h.seats.busy k u hu).resolve_left (by simp [hw]))
  · intro k hk
    obtain rfl : i = k := by simpa [WorkerPc.ended] using hk
    exact hi
  · obtain ⟨hch, htail, hstop, hwork, hconn, hshut, -, hdrain, hjoin⟩ := h.guards
    refine ⟨hch, htail, hstop, ?_, hconn, hshut, by simp, ?_, ?_⟩
    · exact hwork.trans (by simp [hw])
    · intro hs
      exact ⟨(hdrain hs).1, (hdrain hs).2.1, by simp⟩
    · intro hs
      cases hw.symm.trans (hjoin hs)

theorem releaseSlot (h : SchedInv s q) {i : ℕ} {t : OaTask J} (hw : s.worker = .answered i)
    (ht : s.tasks[i]? = some t) :
    SchedInv { s with
      busy := Function.update s.busy t.slot false
      worker := .released i } q := by
  refine ⟨⟨?_, h.ledger.distinct, ?_, h.ledger.flag⟩, ⟨h.seats.slots, ?_, ?_⟩, ?_⟩
  · simpa only [hw, WorkerPc.hand, WorkerPc.ended] using h.ledger.accounts
  · simpa only [hw, WorkerPc.hand] using h.ledger.order
  · intro k u hu
    by_cases hik : i = k
    · exact Or.inl (by rw [hik])
    · have hold := (h.seats.busy k u hu).resolve_left (by simp [hw])
      have hne : u.slot ≠ t.slot := by
        intro he
        have hslots := h.seats.slots
        have hu' : (s.tasks.map OaTask.slot)[k]? = some t.slot := by
          rw [List.getElem?_map, hu, ← he, Option.map_some]
        have ht' : (s.tasks.map OaTask.slot)[i]? = some t.slot := by
          rw [List.getElem?_map, ht, Option.map_some]
        obtain ⟨hi, -⟩ := List.getElem?_eq_some_iff.mp ht'
        exact hik ((List.getElem?_inj hi hslots).mp (ht'.trans hu'.symm))
      exact Or.inr ⟨hold.1, (Function.update_of_ne hne _ _).trans hold.2⟩
  · intro k hk
    exact h.seats.ended k (by simpa [hw, WorkerPc.ended] using hk)
  · obtain ⟨hch, htail, hstop, hwork, hconn, hshut, -, hdrain, hjoin⟩ := h.guards
    refine ⟨hch, htail, hstop, ?_, hconn, hshut, by simp, ?_, ?_⟩
    · simpa [hw] using hwork
    · intro hs
      exact ⟨(hdrain hs).1, (hdrain hs).2.1, by simp⟩
    · intro hs
      cases hw.symm.trans (hjoin hs)

theorem finishTask (h : SchedInv s q) {i : ℕ} (hw : s.worker = .released i) :
    SchedInv { s with tasks := Scheduler.swapRemove s.tasks i, worker := .resume i } q := by
  have hi : i < s.tasks.length := h.seats.ended i (by rw [hw]; rfl)
  have hperm := swapRemove_perm hi
  refine ⟨⟨?_, h.ledger.distinct, ?_, h.ledger.flag⟩, ⟨?_, ?_, by simp [WorkerPc.ended]⟩, ?_⟩
  · refine h.ledger.accounts.perm ?_
    simp only [hw, WorkerPc.hand, WorkerPc.ended, unanswered, List.nil_append]
    exact (hperm.map OaTask.job).symm.append_left q
  · simpa [hw, WorkerPc.hand] using h.ledger.order
  · refine (hperm.map OaTask.slot).nodup_iff.mpr ?_
    exact h.seats.slots.sublist ((List.eraseIdx_sublist _ _).map _)
  · intro k t ht
    refine Or.inr ?_
    obtain ⟨m, hm, hne⟩ : ∃ m, s.tasks[m]? = some t ∧ m ≠ i := by
      have hmem := hperm.mem_iff.mp (List.mem_of_getElem? ht)
      obtain ⟨m, hm, hne, hget⟩ := List.mem_eraseIdx_iff_getElem.mp hmem
      exact ⟨m, List.getElem?_eq_some_iff.mpr ⟨hm, hget⟩, hne⟩
    refine (h.seats.busy m t hm).resolve_left ?_
    rw [hw]
    rintro ⟨⟩
    exact hne rfl
  · obtain ⟨hch, htail, hstop, hwork, hconn, hshut, -, hdrain, hjoin⟩ := h.guards
    refine ⟨hch, htail, hstop, ?_, hconn, hshut, by simp, ?_, ?_⟩
    · simpa [hw] using hwork
    · intro hs
      exact ⟨(hdrain hs).1, (hdrain hs).2.1, by simp⟩
    · intro hs
      cases hw.symm.trans (hjoin hs)

theorem setFlag (h : SchedInv s q) (hs : s.stopper = .idle ∨ s.stopper = .stopped) :
    SchedInv { s with shuttingDown := true, stopper := .flagged } q where
  ledger := ⟨h.ledger.accounts, h.ledger.distinct, h.ledger.order, h.ledger.flag⟩
  seats := ⟨h.seats.slots, h.seats.busy, h.seats.ended⟩
  guards := by
    obtain ⟨hch, htail, hstop, hwork, hconn, -, hexit, -, -⟩ := h.guards
    have hne : s.stopper ≠ .cancelling := by
      rcases hs with hs | hs <;> simp [hs]
    refine ⟨hch, fun _ => htail hne, ?_, hwork, hconn, fun _ => rfl, ?_, by simp, by simp⟩
    · simpa [hne] using hstop
    · intro hx
      exact ⟨(hexit hx).1, rfl⟩

theorem stopLock (h : SchedInv s q) (hs : s.stopper = .flagged) (hfree : s.schMtx = .free) :
    SchedInv { s with schMtx := .stopper, stopper := .cancelling } q where
  ledger := ⟨h.ledger.accounts, h.ledger.distinct, h.ledger.order, h.ledger.flag⟩
  seats := ⟨h.seats.slots, h.seats.busy, h.seats.ended⟩
  guards := by
    obtain ⟨hch, -, -, hwork, -, hshut, hexit, -, -⟩ := h.guards
    refine ⟨hch, by simp, by simp, ?_, by simp, fun _ => hshut (by simp [hs]), hexit, by simp,
      by simp⟩
    rw [hfree] at hwork
    simpa using hwork

theorem cancelJob (h : SchedInv s q) (hs : s.stopper = .cancelling)
    (hj : s.queue.head = some j) :
    ∃ q', q = j :: q' ∧ SchedInv { s.failJob j with
      queue := { s.queue with head := s.queue.next j } } q' := by
  have hch := h.guards.chained
  cases q with
  | nil => exact absurd (hj.symm.trans hch) (by simp)
  | cons k q' =>
    obtain rfl : j = k := Option.some.inj (hj.symm.trans hch.1)
    refine ⟨q', rfl, ⟨?_, h.ledger.distinct, ?_, ?_⟩,
      ⟨h.seats.slots, h.seats.busy, h.seats.ended⟩, ?_⟩
    · simpa [Scheduler.failJob, Scheduler.setDone] using h.ledger.accounts.answer
    · refine List.Sublist.trans ?_ h.ledger.order
      exact ((List.sublist_cons_self j q').append_left _).append_left _
    · intro k
      simp only [Scheduler.failJob, Scheduler.setDone]
      by_cases hk : k = j
      · subst hk
        simp
      · simp only [Function.update_of_ne hk, h.ledger.flag]
    · obtain ⟨-, -, hstop, hwork, hconn, hshut, hexit, -, hjoin⟩ := h.guards
      refine ⟨hch.2, fun hne => absurd hs hne, hstop, hwork, hconn, hshut, hexit, ?_, hjoin⟩
      intro (hd : s.stopper = .stopped ∨ s.stopper = .freed)
      simp [hs] at hd

theorem cancelEnd (h : SchedInv s q) (hs : s.stopper = .cancelling) (hnone : s.queue.head = none)
    (hawake : s.worker ≠ .asleep) :
    SchedInv { s with
      queue := { s.queue with tail := none }
      schMtx := .free
      stopper := .stopped } q where
  ledger := ⟨h.ledger.accounts, h.ledger.distinct, h.ledger.order, h.ledger.flag⟩
  seats := ⟨h.seats.slots, h.seats.busy, h.seats.ended⟩
  guards := by
    have hm : s.schMtx = .stopper := h.guards.stopper.mpr hs
    obtain ⟨hch, -, -, hwork, -, hshut, hexit, -, -⟩ := h.guards
    have hq : q = [] := by
      rw [hch.head?_eq] at hnone
      exact List.head?_eq_none_iff.mp hnone
    subst hq
    refine ⟨hch, fun _ => rfl, by simp, ?_, by simp, fun _ => hshut (by simp [hs]), hexit,
      fun _ => ⟨rfl, rfl, hawake⟩, by simp⟩
    rw [hm] at hwork
    simpa using hwork

theorem joinWorker (h : SchedInv s q) (hs : s.stopper = .stopped) (hw : s.worker = .exited) :
    SchedInv { s with stopper := .freed } q where
  ledger := ⟨h.ledger.accounts, h.ledger.distinct, h.ledger.order, h.ledger.flag⟩
  seats := ⟨h.seats.slots, h.seats.busy, h.seats.ended⟩
  guards := by
    obtain ⟨hch, htail, hstop, hwork, hconn, hshut, hexit, hdrain, -⟩ := h.guards
    have hne : s.stopper ≠ .cancelling := by simp [hs]
    refine ⟨hch, fun _ => htail hne, ?_, hwork, hconn, fun _ => hshut (by simp [hs]), hexit,
      fun _ => hdrain (Or.inl hs), fun _ => hw⟩
    simpa [hne] using hstop

end SchedInv

theorem signal_worker_ne (s : Scheduler J) : s.signal.worker ≠ .asleep := by
  unfold Scheduler.signal
  split_ifs with hw
  · simp
  · exact hw

theorem signal_frame (s : Scheduler J) (queue : LinkedQueue J) (m : SchMtx J) (st : StopPc) :
    Scheduler.signal { s with queue := queue, schMtx := m, stopper := st } =
      { s.signal with queue := queue, schMtx := m, stopper := st } := by
  unfold Scheduler.signal
  split_ifs <;> rfl

theorem signal_queue (s : Scheduler J) : s.signal.queue = s.queue := by
  unfold Scheduler.signal
  split_ifs <;> rfl

theorem signal_stopper (s : Scheduler J) : s.signal.stopper = s.stopper := by
  unfold Scheduler.signal
  split_ifs <;> rfl

/-- Every act keeps the invariant. -/
theorem schedInv_apply (h : SchedInv s q) (a : SchedAct J) : ∃ q', SchedInv (s.apply a) q' := by
  cases a with
  | pushLock j =>
    simp only [Scheduler.apply]
    split_ifs with hif
    · exact ⟨q, h.pushLock hif.1 hif.2.1 hif.2.2⟩
    · exact ⟨q, h⟩
  | pushAppend =>
    simp only [Scheduler.apply]
    split
    · exact ⟨_, (h.pushAppend ‹_›).signal⟩
    · exact ⟨q, h⟩
  | wait =>
    simp only [Scheduler.apply]
    split_ifs with hif hsleep
    · exact ⟨q, h.move .asleep (by rw [hif.1]; rfl) (by rw [hif.1]; rfl) (by simp [hif.1])
        (by simp [hif.1]) (fun _ => hsleep.2.2) (by simp) (by simp [hif.1])⟩
    · exact ⟨q, h.move .checkExit (by rw [hif.1]; rfl) (by rw [hif.1]; rfl) (by simp [hif.1])
        (by simp [hif.1]) (by simp) (by simp) (by simp [hif.1])⟩
    · exact ⟨q, h⟩
  | wake => exact ⟨q, h.signal⟩
  | checkExit =>
    simp only [Scheduler.apply]
    split_ifs with hw hexit
    · exact ⟨q, h.move .exited (by rw [hw]; rfl) (by rw [hw]; rfl) (by simp [hw]) (by simp [hw])
        (by simp) (fun _ => hexit) (by simp [hw])⟩
    · exact ⟨q, h.move .admitJobs (by rw [hw]; rfl) (by rw [hw]; rfl) (by simp [hw]) (by simp [hw])
        (by simp) (by simp) (by simp [hw])⟩
    · exact ⟨q, h⟩
  | admitGuard =>
    simp only [Scheduler.apply]
    split_ifs with hw
    · exact ⟨q, h.move .pop (by rw [hw]; rfl) (by rw [hw]; rfl) (by simp [hw]) (by simp [hw])
        (by simp) (by simp) (by simp [hw])⟩
    · exact ⟨q, h.move (.resume 0) (by rw [hw]; rfl) (by rw [hw]; rfl) (by simp [hw])
        (by simp [hw]) (by simp) (by simp) (by simp [hw])⟩
    · exact ⟨q, h⟩
  | pop =>
    simp only [Scheduler.apply]
    split_ifs with hif
    · split
      · obtain ⟨q', -, hpop⟩ := h.popHead hif.1 hif.2 ‹_›
        exact ⟨q', hpop⟩
      · exact ⟨q, h.move (.resume 0) (by rw [hif.1]; rfl) (by rw [hif.1]; rfl) (by simp [hif.1])
          (by simp [hif.1]) (by simp) (by simp) (by simp [hif.1])⟩
    · exact ⟨q, h⟩
  | start c created =>
    simp only [Scheduler.apply]
    split
    · split_ifs with hc
      · exact ⟨q, h.taskStart ‹_› hc created⟩
      · exact ⟨q, h⟩
    · exact ⟨q, h⟩
  | pushBackLock =>
    simp only [Scheduler.apply]
    split
    · rename_i j hw
      split_ifs with hfree hsd
      · exact ⟨q, h.move (.failing j) (by rw [hw]; rfl) (by rw [hw]; rfl) (by simp [hw])
          (by simp [hw]) (by simp) (by simp) (by simp [hw])⟩
      · exact ⟨q, h.pushBackLock hw (by simpa using hsd)⟩
      · exact ⟨q, h⟩
    · exact ⟨q, h⟩
  | pushFront =>
    simp only [Scheduler.apply]
    split
    · exact ⟨_, h.pushFront ‹_›⟩
    · exact ⟨q, h⟩
  | failPopped =>
    simp only [Scheduler.apply]
    split
    · rename_i j hw
      exact ⟨q, h.failHand (by rw [hw]; rfl) (by rw [hw]; rfl) (by simp [hw]) (.resume 0) rfl rfl
        (by simp) (by simp)⟩
    · exact ⟨q, h⟩
  | enter gone =>
    simp only [Scheduler.apply]
    split
    · rename_i i hw
      split
      · rename_i t ht
        split_ifs with hent
        · exact ⟨q, h⟩
        · have hzero : s.doneSets t.job = 0 :=
            h.doneSets_eq_zero (by rw [hw]; rfl) (List.mem_of_getElem? ht)
          unfold Scheduler.taskEnter
          split_ifs
          · exact ⟨q, h.markEntered hw ht⟩
          · exact ⟨q, h.answerTask hw ht⟩
          · exact ⟨q, (h.reopen hzero).markEntered hw ht⟩
      · exact ⟨q, h⟩
    · exact ⟨q, h⟩
  | yield =>
    simp only [Scheduler.apply]
    split
    · rename_i i hw
      split
      · split_ifs
        · exact ⟨q, h.move (.resume (i + 1)) (by rw [hw]; rfl) (by rw [hw]; rfl) (by simp [hw])
            (by simp [hw]) (by simp) (by simp) (by simp [hw])⟩
        · exact ⟨q, h⟩
      · exact ⟨q, h⟩
    · exact ⟨q, h⟩
  | answer =>
    simp only [Scheduler.apply]
    split
    · split
      · split_ifs
        · exact ⟨q, h.answerTask ‹_› ‹_›⟩
        · exact ⟨q, h⟩
      · exact ⟨q, h⟩
    · exact ⟨q, h⟩
  | release =>
    simp only [Scheduler.apply]
    split
    · split
      · exact ⟨q, h.releaseSlot ‹_› ‹_›⟩
      · exact ⟨q, h⟩
    · exact ⟨q, h⟩
  | finish =>
    simp only [Scheduler.apply]
    split
    · exact ⟨q, h.finishTask ‹_›⟩
    · exact ⟨q, h⟩
  | resumed =>
    simp only [Scheduler.apply]
    split
    · rename_i i hw
      split_ifs
      · exact ⟨q, h.move .top (by rw [hw]; rfl) (by rw [hw]; rfl) (by simp [hw]) (by simp [hw])
          (by simp) (by simp) (by simp [hw])⟩
      · exact ⟨q, h⟩
    · exact ⟨q, h⟩
  | stopFlag =>
    simp only [Scheduler.apply]
    split_ifs with hs
    · exact ⟨q, h.setFlag hs⟩
    · exact ⟨q, h⟩
  | stopLock =>
    simp only [Scheduler.apply]
    split_ifs with hs
    · exact ⟨q, h.stopLock hs.1 hs.2⟩
    · exact ⟨q, h⟩
  | cancelHead =>
    simp only [Scheduler.apply]
    split_ifs with hs
    · split
      · obtain ⟨q', -, hcancel⟩ := h.cancelJob hs ‹_›
        exact ⟨q', hcancel⟩
      · exact ⟨q, h⟩
    · exact ⟨q, h⟩
  | cancelEnd =>
    simp only [Scheduler.apply]
    split_ifs with hs
    · rw [signal_frame]
      have hend := h.signal.cancelEnd ((signal_stopper s).trans hs.1)
        ((congrArg LinkedQueue.head (signal_queue s)).trans hs.2) (signal_worker_ne s)
      rw [signal_queue] at hend
      exact ⟨q, hend⟩
    · exact ⟨q, h⟩
  | join =>
    simp only [Scheduler.apply]
    split_ifs with hs
    · exact ⟨q, h.joinWorker hs.1 hs.2⟩
    · exact ⟨q, h⟩

theorem schedInv_run (decision : J → Bool) (slotsCap : ℕ) (acts : List (SchedAct J)) :
    ∃ q, SchedInv (acts.foldl Scheduler.apply (Scheduler.init decision slotsCap)) q := by
  suffices hrun : ∀ s : Scheduler J, (∃ q, SchedInv s q) →
      ∃ q, SchedInv (acts.foldl Scheduler.apply s) q from
    hrun _ ⟨[], schedInv_init decision slotsCap⟩
  induction acts with
  | nil => exact fun s hs => hs
  | cons a acts ih =>
    rintro s ⟨q, hs⟩
    exact ih _ (schedInv_apply hs a)

end Invariant

end Kappai
