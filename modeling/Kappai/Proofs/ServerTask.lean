import Kappai.Spec.ServerTask

/-! The handshake of `server_task`. Where the two threads can be is fixed by who has control,
and every statement keeps it so. -/

namespace Kappai

namespace TaskPhase

/-- Where the scheduler can be. It sleeps only while the task has control. -/
def scheds : TaskPhase → List SchedAt
  | .parked => [.outside, .lock, .test]
  | .handed | .inside => [.loop, .asleep, .woken]
  | .left _ => [.loop, .woken, .unlock]
  | .finished => [.outside, .lock, .test, .unlock, .joined]

/-- Where the task can be. It sleeps only while it has no control. -/
def tasks : TaskPhase → List TaskAt
  | .parked => [.startLock, .loop, .asleep, .woken]
  | .handed => [.startLock, .loop, .woken, .unlock]
  | .inside => [.body, .yieldLock, .yieldSet, .endLock, .endSet]
  | .left false => [.loop, .asleep, .woken]
  | .left true | .finished => [.endUnlock, .exited]

def running : TaskPhase → Bool
  | .handed | .inside => true
  | _ => false

def done : TaskPhase → Bool
  | .left done => done
  | .finished => true
  | _ => false

/-- The scheduler may go to sleep when the flag is up, and leave its loop when it is down. -/
theorem scheds_loop {ph : TaskPhase} (h : SchedAt.loop ∈ ph.scheds) :
    (ph.running = true → SchedAt.asleep ∈ ph.scheds) ∧
      (¬ph.running = true → SchedAt.unlock ∈ ph.scheds) := by
  cases ph <;> simp_all [scheds, running]

/-- The task may go to sleep when the flag is down, and leave its loop when it is up. -/
theorem tasks_loop {ph : TaskPhase} (h : TaskAt.loop ∈ ph.tasks) :
    (ph.running = true → TaskAt.unlock ∈ ph.tasks) ∧
      (¬ph.running = true → TaskAt.asleep ∈ ph.tasks) := by
  cases ph with
  | left d => cases d <;> simp_all [tasks, running]
  | _ => simp_all [tasks, running]

theorem scheds_asleep {ph : TaskPhase} (h : SchedAt.asleep ∈ ph.scheds) :
    SchedAt.woken ∈ ph.scheds ∧ ph.running = true := by
  cases ph <;> simp_all [scheds, running]

theorem scheds_outside {ph : TaskPhase} (h : SchedAt.outside ∈ ph.scheds) :
    SchedAt.lock ∈ ph.scheds := by
  cases ph <;> simp_all [scheds]

theorem scheds_joined {ph : TaskPhase} (h : SchedAt.outside ∈ ph.scheds)
    (ht : TaskAt.exited ∈ ph.tasks) : SchedAt.joined ∈ ph.scheds := by
  cases ph <;> simp_all [scheds, tasks]

theorem tasks_asleep {ph : TaskPhase} (h : TaskAt.asleep ∈ ph.tasks) :
    TaskAt.woken ∈ ph.tasks ∧ ph.running = false := by
  cases ph with
  | left d => cases d <;> simp_all [tasks, running]
  | _ => simp_all [tasks, running]

theorem tasks_woken {ph : TaskPhase} (h : TaskAt.woken ∈ ph.tasks) : TaskAt.loop ∈ ph.tasks := by
  cases ph with
  | left d => cases d <;> simp_all [tasks]
  | _ => simp_all [tasks]

theorem tasks_startLock {ph : TaskPhase} (h : TaskAt.startLock ∈ ph.tasks) :
    TaskAt.loop ∈ ph.tasks := by
  cases ph with
  | left d => cases d <;> simp_all [tasks]
  | _ => simp_all [tasks]

theorem tasks_endUnlock {ph : TaskPhase} (h : TaskAt.endUnlock ∈ ph.tasks) :
    TaskAt.exited ∈ ph.tasks := by
  cases ph with
  | left d => cases d <;> simp_all [tasks]
  | _ => simp_all [tasks]

theorem tasks_unlock {ph : TaskPhase} (h : TaskAt.unlock ∈ ph.tasks) : ph = .handed := by
  cases ph with
  | left d => cases d <;> simp_all [tasks]
  | _ => simp_all [tasks]

/-- The statements of the body and of a call that leaves it are reached only with control. -/
theorem tasks_inside {ph : TaskPhase} {a : TaskAt} (h : a ∈ ph.tasks)
    (ha : a ∈ TaskPhase.inside.tasks) : ph = .inside := by
  cases ph with
  | left d => cases d <;> cases a <;> simp_all [tasks]
  | _ => cases a <;> simp_all [tasks]

end TaskPhase

/-- The statements before which the scheduler holds the mutex. -/
def SchedAt.holds : SchedAt → Bool
  | .test | .loop | .unlock => true
  | _ => false

def TaskAt.holds : TaskAt → Bool
  | .loop | .unlock | .yieldSet | .endSet | .endUnlock => true
  | _ => false

namespace ServerTask

/-- The log is in order and both threads are where its phase has them. -/
structure InPhase (t : ServerTask) (ph : TaskPhase) : Prop where
  log : taskPhase t.log = some ph
  sched : t.sched ∈ ph.scheds
  task : t.task ∈ ph.tasks
  running : t.running = ph.running
  done : t.done = ph.done
  schedHolds : t.lock = some .scheduler ↔ t.sched.holds
  taskHolds : t.lock = some .task ↔ t.task.holds
  joined : t.sched = .joined → t.task = .exited

theorem init_inPhase : InPhase init .parked := by
  constructor <;> decide

theorem taskPhase_append {log : List TaskEvent} {ph ph' : TaskPhase} {e : TaskEvent}
    (h : taskPhase log = some ph) (hnext : ph.next e = some ph') :
    taskPhase (log ++ [e]) = some ph' := by
  rw [taskPhase, List.foldlM_append]
  change (taskPhase log).bind _ = _
  rw [h]
  simp [hnext]

variable {t : ServerTask} {ph : TaskPhase}

/-- The scheduler takes the mutex when it is free. -/
theorem InPhase.schedLock (h : t.InPhase ph) {next : SchedAt} (hnext : next ∈ ph.scheds)
    (hheld : next.holds) : (t.schedLock next).InPhase ph := by
  unfold ServerTask.schedLock
  split_ifs with hfree
  · have htask : t.task.holds = false := by
      have := h.taskHolds
      rw [hfree] at this
      simpa using this
    exact ⟨h.log, hnext, h.task, h.running, h.done, by simp [hheld], by simp [htask],
      fun hj => by rw [show next = .joined from hj] at hheld; cases hheld⟩
  · exact h

theorem InPhase.taskLock (h : t.InPhase ph) {next : TaskAt} (hnext : next ∈ ph.tasks)
    (hheld : next.holds) (hnot : t.task ≠ .exited) : (t.taskLock next).InPhase ph := by
  unfold ServerTask.taskLock
  split_ifs with hfree
  · have hsched : t.sched.holds = false := by
      have := h.schedHolds
      rw [hfree] at this
      simpa using this
    exact ⟨h.log, h.sched, hnext, h.running, h.done, by simp [hsched], by simp [hheld],
      fun hj => absurd (h.joined hj) hnot⟩
  · exact h

/-- Only one of the two holds the mutex. -/
theorem InPhase.task_not_holds (h : t.InPhase ph) (hs : t.sched.holds) : t.task.holds = false := by
  have hl := h.schedHolds.2 hs
  have ht := h.taskHolds
  rw [hl] at ht
  simpa using ht

/-- Who is woken did not hold the mutex and does not get it yet. -/
theorem broadcast_task_holds (t : ServerTask) : t.broadcast.task.holds = t.task.holds := by
  change (if t.task = .asleep then TaskAt.woken else t.task).holds = _
  split_ifs with h
  · rw [h]; rfl
  · rfl

theorem broadcast_sched_holds (t : ServerTask) : t.broadcast.sched.holds = t.sched.holds := by
  change (if t.sched = .asleep then SchedAt.woken else t.sched).holds = _
  split_ifs with h
  · rw [h]; rfl
  · rfl

/-- The task is handed control: if it slept it is awake now. -/
theorem InPhase.handOver (h : t.InPhase .parked) (hs : t.sched = .test) :
    t.handOver.InPhase .handed := by
  have hlock : t.lock = some .scheduler := h.schedHolds.2 (by rw [hs]; rfl)
  have htask : t.task ∈ [TaskAt.startLock, .loop, .asleep, .woken] := h.task
  have hfree : t.broadcast.task.holds = false := by
    rw [broadcast_task_holds]
    exact h.task_not_holds (by rw [hs]; rfl)
  have hloop : SchedAt.loop ∈ TaskPhase.handed.scheds := by decide
  refine ⟨taskPhase_append h.log rfl, hloop, ?_, rfl, h.done, ?_, ?_, fun hj => by cases hj⟩
  · change t.broadcast.task ∈ [TaskAt.startLock, .loop, .woken, .unlock]
    simp only [List.mem_cons, List.not_mem_nil, or_false] at htask
    rcases htask with ht | ht | ht | ht <;> simp [broadcast, ht]
  · exact iff_of_true hlock rfl
  · refine iff_of_false (fun hl => ?_) (by change ¬t.broadcast.task.holds = true; simp [hfree])
    have : some TaskSide.scheduler = some .task := hlock.symm.trans hl
    cases this

/-- Control goes back: if the scheduler slept it is awake now. -/
theorem InPhase.leave (h : t.InPhase .inside) (hs : t.task.holds) (done : Bool) {next : TaskAt}
    (hnext : next ∈ (TaskPhase.left done).tasks) (hheld : next.holds) :
    (t.leave done next).InPhase (.left done) := by
  have hlock : t.lock = some .task := h.taskHolds.2 hs
  have hsched : t.sched ∈ [SchedAt.loop, .asleep, .woken] := h.sched
  have hfree : t.broadcast.sched.holds = false := by
    rw [broadcast_sched_holds]
    have := h.schedHolds
    rw [hlock] at this
    simpa using this
  have hmem : t.broadcast.sched ∈ [SchedAt.loop, .woken, .unlock] := by
    simp only [List.mem_cons, List.not_mem_nil, or_false] at hsched
    rcases hsched with ht | ht | ht <;> simp [broadcast, ht]
  have hdone : t.done = false := h.done
  refine ⟨taskPhase_append h.log rfl, hmem, hnext, rfl, ?_, ?_, ?_, fun hj => ?_⟩
  · change (t.done || done) = done
    rw [hdone, Bool.false_or]
  · refine iff_of_false (fun hl => ?_) (by change ¬t.broadcast.sched.holds = true; simp [hfree])
    have : some TaskSide.task = some .scheduler := hlock.symm.trans hl
    cases this
  · exact iff_of_true hlock hheld
  · change t.broadcast.sched = .joined at hj
    rw [hj] at hmem
    simp at hmem

theorem InPhase.schedStep (h : t.InPhase ph) : ∃ ph', t.schedStep.InPhase ph' := by
  have hsched := h.sched
  cases hs : t.sched with
  | outside => exact ⟨ph, by simpa only [ServerTask.schedStep, hs] using h⟩
  | asleep => exact ⟨ph, by simpa only [ServerTask.schedStep, hs] using h⟩
  | joined => exact ⟨ph, by simpa only [ServerTask.schedStep, hs] using h⟩
  | lock =>
    simp only [ServerTask.schedStep, hs]
    refine ⟨ph, h.schedLock ?_ rfl⟩
    rw [hs] at hsched
    cases ph <;> simp_all [TaskPhase.scheds]
  | woken =>
    simp only [ServerTask.schedStep, hs]
    refine ⟨ph, h.schedLock ?_ rfl⟩
    rw [hs] at hsched
    cases ph <;> simp_all [TaskPhase.scheds]
  | test =>
    have hlock : t.lock = some .scheduler := h.schedHolds.2 (by rw [hs]; rfl)
    rw [hs] at hsched
    simp only [ServerTask.schedStep, hs]
    cases ph with
    | parked => exact ⟨.handed, by rw [if_neg (by rw [h.done]; decide)]; exact h.handOver hs⟩
    | finished =>
      have hunlock : SchedAt.unlock ∈ TaskPhase.finished.scheds := by decide
      rw [if_pos (by rw [h.done]; rfl)]
      exact ⟨.finished, h.log, hunlock, h.task, h.running, h.done, iff_of_true hlock rfl,
        h.taskHolds, fun hj => by cases hj⟩
    | handed => simp [TaskPhase.scheds] at hsched
    | inside => simp [TaskPhase.scheds] at hsched
    | left d => simp [TaskPhase.scheds] at hsched
  | loop =>
    have hlock : t.lock = some .scheduler := h.schedHolds.2 (by rw [hs]; rfl)
    have hfree : t.task.holds = false := h.task_not_holds (by rw [hs]; rfl)
    rw [hs] at hsched
    simp only [ServerTask.schedStep, hs]
    split_ifs with hrun
    · -- the flag is still up: to sleep
      exact ⟨ph, h.log, (TaskPhase.scheds_loop hsched).1 (h.running ▸ hrun), h.task, h.running,
        h.done, by simp [SchedAt.holds], by simp [hfree], fun hj => by cases hj⟩
    · exact ⟨ph, h.log, (TaskPhase.scheds_loop hsched).2 (h.running ▸ hrun), h.task, h.running,
        h.done, iff_of_true hlock rfl, h.taskHolds, fun hj => by cases hj⟩
  | unlock =>
    have hlock : t.lock = some .scheduler := h.schedHolds.2 (by rw [hs]; rfl)
    have hfree : t.task.holds = false := h.task_not_holds (by rw [hs]; rfl)
    rw [hs] at hsched
    simp only [ServerTask.schedStep, hs]
    -- the resume returns what the task left with
    have hback (ph' : TaskPhase) (hnext : ph.next (.resumed t.done) = some ph')
        (hout : SchedAt.outside ∈ ph'.scheds) (htask : t.task ∈ ph'.tasks)
        (hrun : ph.running = ph'.running) (hdone : ph.done = ph'.done) :
        InPhase { t with
          lock := none, sched := .outside, log := t.log ++ [.resumed t.done] } ph' :=
      ⟨taskPhase_append h.log hnext, hout, htask, h.running.trans hrun, h.done.trans hdone,
        by simp [SchedAt.holds], by simp [hfree], fun hj => by cases hj⟩
    have hd := h.done
    have htask := h.task
    cases ph with
    | left d =>
      cases d with
      | false =>
        refine ⟨.parked, hback _ (by rw [hd]; rfl) (by decide) ?_ rfl rfl⟩
        simp_all [TaskPhase.tasks]
      | true => exact ⟨.finished, hback _ (by rw [hd]; rfl) (by decide) htask rfl rfl⟩
    | finished => exact ⟨.finished, hback _ (by rw [hd]; rfl) (by decide) htask rfl rfl⟩
    | parked => simp [TaskPhase.scheds] at hsched
    | handed => simp [TaskPhase.scheds] at hsched
    | inside => simp [TaskPhase.scheds] at hsched

theorem InPhase.taskStep (h : t.InPhase ph) : ∃ ph', t.taskStep.InPhase ph' := by
  have htask := h.task
  have hjoined : t.task ≠ .exited → t.sched ≠ .joined := fun hne hj => hne (h.joined hj)
  have hsched : t.task.holds → t.lock = some .task ∧ t.sched.holds = false := fun hh => by
    have hlock := h.taskHolds.2 hh
    have hs := h.schedHolds
    rw [hlock] at hs
    exact ⟨hlock, by simpa using hs⟩
  cases ht : t.task with
  | asleep => exact ⟨ph, by simpa only [ServerTask.taskStep, ht] using h⟩
  | body => exact ⟨ph, by simpa only [ServerTask.taskStep, ht] using h⟩
  | exited => exact ⟨ph, by simpa only [ServerTask.taskStep, ht] using h⟩
  | startLock =>
    simp only [ServerTask.taskStep, ht]
    refine ⟨ph, h.taskLock ?_ rfl (by rw [ht]; decide)⟩
    rw [ht] at htask
    exact TaskPhase.tasks_startLock htask
  | woken =>
    simp only [ServerTask.taskStep, ht]
    refine ⟨ph, h.taskLock ?_ rfl (by rw [ht]; decide)⟩
    rw [ht] at htask
    exact TaskPhase.tasks_woken htask
  | loop =>
    obtain ⟨hlock, hfree⟩ := hsched (by rw [ht]; rfl)
    have hnj := hjoined (by rw [ht]; decide)
    rw [ht] at htask
    simp only [ServerTask.taskStep, ht]
    split_ifs with hrun
    · exact ⟨ph, h.log, h.sched, (TaskPhase.tasks_loop htask).1 (h.running ▸ hrun), h.running,
        h.done, h.schedHolds, iff_of_true hlock rfl, fun hj => absurd hj hnj⟩
    · -- the flag is still down: to sleep
      exact ⟨ph, h.log, h.sched, (TaskPhase.tasks_loop htask).2 (h.running ▸ hrun), h.running,
        h.done, by simp [hfree], by simp [TaskAt.holds], fun hj => absurd hj hnj⟩
  | unlock =>
    obtain ⟨hlock, hfree⟩ := hsched (by rw [ht]; rfl)
    have hnj := hjoined (by rw [ht]; decide)
    rw [ht] at htask
    obtain rfl := TaskPhase.tasks_unlock htask
    have hbody : TaskAt.body ∈ TaskPhase.inside.tasks := by decide
    simp only [ServerTask.taskStep, ht]
    exact ⟨.inside, taskPhase_append h.log rfl, h.sched, hbody, h.running, h.done,
      by simp [hfree], by simp [TaskAt.holds], fun hj => absurd hj hnj⟩
  | yieldLock =>
    rw [ht] at htask
    obtain rfl := TaskPhase.tasks_inside htask (by decide)
    simp only [ServerTask.taskStep, ht]
    exact ⟨.inside, h.taskLock (by decide) rfl (by rw [ht]; decide)⟩
  | endLock =>
    rw [ht] at htask
    obtain rfl := TaskPhase.tasks_inside htask (by decide)
    simp only [ServerTask.taskStep, ht]
    exact ⟨.inside, h.taskLock (by decide) rfl (by rw [ht]; decide)⟩
  | yieldSet =>
    rw [ht] at htask
    obtain rfl := TaskPhase.tasks_inside htask (by decide)
    simp only [ServerTask.taskStep, ht]
    exact ⟨.left false, h.leave (by rw [ht]; rfl) false (by decide) rfl⟩
  | endSet =>
    rw [ht] at htask
    obtain rfl := TaskPhase.tasks_inside htask (by decide)
    simp only [ServerTask.taskStep, ht]
    exact ⟨.left true, h.leave (by rw [ht]; rfl) true (by decide) rfl⟩
  | endUnlock =>
    obtain ⟨hlock, hfree⟩ := hsched (by rw [ht]; rfl)
    rw [ht] at htask
    simp only [ServerTask.taskStep, ht]
    exact ⟨ph, h.log, h.sched, TaskPhase.tasks_endUnlock htask, h.running, h.done,
      by simp [hfree], by simp [TaskAt.holds], fun _ => rfl⟩

/-- What a thread does without the mutex and without the flags: a call, or a wake-up. -/
theorem InPhase.moveSched (h : t.InPhase ph) {next : SchedAt} (hmem : next ∈ ph.scheds)
    (hold : t.sched.holds = false) (hnew : next.holds = false)
    (hj : next = .joined → t.task = .exited) : InPhase { t with sched := next } ph where
  log := h.log
  sched := hmem
  task := h.task
  running := h.running
  done := h.done
  schedHolds := by
    have := h.schedHolds
    rw [hold] at this
    rwa [hnew]
  taskHolds := h.taskHolds
  joined := hj

theorem InPhase.moveTask (h : t.InPhase ph) {next : TaskAt} (hmem : next ∈ ph.tasks)
    (hold : t.task.holds = false) (hnew : next.holds = false) (hne : t.task ≠ .exited) :
    InPhase { t with task := next } ph where
  log := h.log
  sched := h.sched
  task := hmem
  running := h.running
  done := h.done
  schedHolds := h.schedHolds
  taskHolds := by
    have := h.taskHolds
    rw [hold] at this
    rwa [hnew]
  joined hj := absurd (h.joined hj) hne

theorem InPhase.apply (h : t.InPhase ph) (a : TaskAct) : ∃ ph', (t.apply a).InPhase ph' := by
  have hsched := h.sched
  have htask := h.task
  cases a with
  | sched => exact h.schedStep
  | task => exact h.taskStep
  | resume =>
    simp only [ServerTask.apply]
    split_ifs with hs
    · rw [hs] at hsched
      exact ⟨ph, h.moveSched (TaskPhase.scheds_outside hsched) (by rw [hs]; rfl) rfl
        fun hj => by cases hj⟩
    · exact ⟨ph, h⟩
  | join =>
    simp only [ServerTask.apply]
    split_ifs with hs
    · rw [hs.1] at hsched
      rw [hs.2] at htask
      exact ⟨ph, h.moveSched (TaskPhase.scheds_joined hsched htask) (by rw [hs.1]; rfl) rfl
        fun _ => hs.2⟩
    · exact ⟨ph, h⟩
  | yield =>
    simp only [ServerTask.apply]
    split_ifs with ht
    · rw [ht] at htask
      obtain rfl := TaskPhase.tasks_inside htask (by decide)
      exact ⟨.inside, h.moveTask (by decide) (by rw [ht]; rfl) rfl (by rw [ht]; decide)⟩
    · exact ⟨ph, h⟩
  | finish =>
    simp only [ServerTask.apply]
    split_ifs with ht
    · rw [ht] at htask
      obtain rfl := TaskPhase.tasks_inside htask (by decide)
      exact ⟨.inside, h.moveTask (by decide) (by rw [ht]; rfl) rfl (by rw [ht]; decide)⟩
    · exact ⟨ph, h⟩
  | spuriousSched =>
    simp only [ServerTask.apply]
    split_ifs with hs
    · rw [hs] at hsched
      exact ⟨ph, h.moveSched (TaskPhase.scheds_asleep hsched).1 (by rw [hs]; rfl) rfl
        fun hj => by cases hj⟩
    · exact ⟨ph, h⟩
  | spuriousTask =>
    simp only [ServerTask.apply]
    split_ifs with ht
    · rw [ht] at htask
      exact ⟨ph, h.moveTask (TaskPhase.tasks_asleep htask).1 (by rw [ht]; rfl) rfl
        (by rw [ht]; decide)⟩
    · exact ⟨ph, h⟩

/-- How a log that leads to a phase ends. -/
def EndsIn (log : List TaskEvent) : TaskPhase → Prop
  | .parked => log = [] ∨ log.getLast? = some (.resumed false)
  | .handed => log.getLast? = some .resume
  | .inside => log.getLast? = some .enter
  | .left done => log.getLast? = some (.leave done)
  | .finished => log.getLast? = some (.resumed true)

/-- The last event says who has control. -/
theorem endsIn_of_taskPhase {log : List TaskEvent} {ph : TaskPhase}
    (h : taskPhase log = some ph) : EndsIn log ph := by
  rcases List.eq_nil_or_concat log with rfl | ⟨init, e, rfl⟩
  · obtain rfl := Option.some.inj h
    exact Or.inl rfl
  · rw [List.concat_eq_append, taskPhase, List.foldlM_append] at h
    obtain ⟨ph', -, hlast⟩ := Option.bind_eq_some_iff.mp h
    have hnext : ph'.next e = some ph := by simpa using hlast
    rw [List.concat_eq_append]
    revert hnext
    fun_cases TaskPhase.next ph' e with
    | case7 => exact fun hnext => by cases hnext
    | _ => exact fun hnext => by cases hnext; simp [EndsIn]

/-- In an accepted log every event answers the one before it. -/
theorem answers_of_taskPhase {before after : List TaskEvent} {e : TaskEvent} {ph : TaskPhase}
    (h : taskPhase (before ++ e :: after) = some ph) : Answers before e := by
  rw [taskPhase, List.foldlM_append] at h
  obtain ⟨ph', hbefore, hrest⟩ := Option.bind_eq_some_iff.mp h
  rw [List.foldlM_cons] at hrest
  obtain ⟨ph'', hnext, -⟩ := Option.bind_eq_some_iff.mp hrest
  have hlast := endsIn_of_taskPhase hbefore
  revert hnext hlast
  fun_cases TaskPhase.next ph' e with
  | case1 => exact fun _ h => h
  | case2 => exact fun _ h => h
  | case3 => exact fun _ h => h
  | case4 => exact fun _ h => Or.inl h
  | case5 => exact fun _ h => Or.inl h
  | case6 => exact fun _ h => Or.inr ⟨h, rfl⟩
  | case7 => exact fun hnext => by cases hnext

theorem inPhase_of_run (acts : List TaskAct) : ∃ ph, (acts.foldl ServerTask.apply init).InPhase ph := by
  suffices ∀ t ph, InPhase t ph → ∃ ph', (acts.foldl ServerTask.apply t).InPhase ph' from
    this init .parked init_inPhase
  induction acts with
  | nil => exact fun t ph h => ⟨ph, h⟩
  | cons a acts ih =>
    intro t ph h
    obtain ⟨ph', h'⟩ := h.apply a
    exact ih _ ph' h'

/-- In every run, spurious wake-ups included: the body and the scheduler's own code never run
together; each resume is answered by one entry into the body, each yield or end by one return
of a resume, and nothing else passes control; nobody sleeps while the flag says to go on; and a
joined task has exited. -/
theorem resume_yield_alternate (acts : List TaskAct) :
    let t := acts.foldl ServerTask.apply init
    ¬(t.task = .body ∧ t.sched = .outside) ∧
      (∀ before e after, t.log = before ++ e :: after → Answers before e) ∧
      (t.sched = .asleep → t.running = true) ∧ (t.task = .asleep → t.running = false) ∧
      (t.sched = .joined → t.task = .exited) := by
  intro t
  obtain ⟨ph, h⟩ := inPhase_of_run acts
  refine ⟨fun ⟨hb, ho⟩ => ?_,
    fun before e after hlog => answers_of_taskPhase (hlog ▸ h.log), fun hs => ?_, fun ht => ?_,
    h.joined⟩
  · have htask := h.task
    have hsched := h.sched
    rw [hb] at htask
    obtain rfl := TaskPhase.tasks_inside htask (by decide)
    rw [ho] at hsched
    simp [TaskPhase.scheds] at hsched
  · have hsched := h.sched
    rw [hs] at hsched
    exact h.running.trans (TaskPhase.scheds_asleep hsched).2
  · have htask := h.task
    rw [ht] at htask
    exact h.running.trans (TaskPhase.tasks_asleep htask).2

/-- A first resume, up to its return after the task has yielded. -/
example :
    ([TaskAct.resume, .sched, .sched, .sched, .task, .task, .task, .yield, .task, .task, .task,
      .sched, .sched, .sched].foldl ServerTask.apply init).log =
      [.resume, .enter, .leave false, .resumed false] := by
  decide

end ServerTask

end Kappai
