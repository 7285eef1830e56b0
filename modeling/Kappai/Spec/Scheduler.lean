import Kappai.Lib.Queues

/-! The scheduler of the server: the queue of jobs under `sch_mtx`, the worker thread that admits
and runs them as tasks, the connection threads that push them and the thread that stops the
server. The steps are those between which another thread can get in. -/

namespace Kappai

variable {J : Type*}

/-- `oa_task`. `entered` is set once `run_generation` is past its first check, or
`run_decision` has begun. -/
structure OaTask (J : Type*) where
  job : J
  slot : ℕ
  entered : Bool
deriving DecidableEq, Repr

/-- Who holds `sch_mtx` across more than one step. -/
inductive SchMtx (J : Type*)
  | free
  /-- `job_push` of `j` has found the server running. -/
  | conn (j : J)
  | worker
  | stopper
deriving DecidableEq, Repr

/-- Where the worker is. -/
inductive WorkerPc (J : Type*)
  /-- before the lock at the top of `worker_main` -/
  | top
  /-- in `pthread_cond_wait` -/
  | asleep
  | checkExit
  /-- the condition of the loop of `admit_jobs` -/
  | admitJobs
  | pop
  | start (j : J)
  /-- `task_start` was false; before the lock is taken again -/
  | pushBack (j : J)
  /-- holds the lock and has found the server running -/
  | pushFront (j : J)
  /-- has found the server shutting down and let the lock go -/
  | failing (j : J)
  /-- the loop over the tasks, at index `i` -/
  | resume (i : ℕ)
  /-- the task at `i` has set `generation_done` -/
  | answered (i : ℕ)
  /-- the task at `i` has given its slot back -/
  | released (i : ℕ)
  | exited
deriving DecidableEq, Repr

inductive StopPc
  | idle
  /-- `shutting_down` is stored -/
  | flagged
  /-- in `jobs_cancel`, under the lock -/
  | cancelling
  /-- past the unlock of `openai_stop` -/
  | stopped
  /-- past the `pthread_join` and the second `jobs_cancel` of `openai_free` -/
  | freed
deriving DecidableEq, Repr

/-- The candidates of `slot_pick_chat` and `slot_pick_text`: the matched slot, whether
`slot_create` has memory for a new one, and the idle slot used longest ago. -/
structure SlotChoice where
  best : Option ℕ
  fresh : Bool
  lru : Option ℕ
deriving DecidableEq, Repr

/-- `accepted`, `started` and `doneSets` record the pushes that went through, the tasks that were
created and how often `generation_done` was set. -/
structure Scheduler (J : Type*) where
  decision : J → Bool
  slotsCap : ℕ
  nSlots : ℕ
  busy : ℕ → Bool
  queue : LinkedQueue J
  schMtx : SchMtx J
  shuttingDown : Bool
  tasks : List (OaTask J)
  worker : WorkerPc J
  stopper : StopPc
  generationDone : J → Bool
  accepted : List J
  started : List J
  doneSets : J → ℕ

inductive SchedAct (J : Type*)
  /-- `job_push`, up to its look at the flag -/
  | pushLock (j : J)
  /-- the rest of `job_push` -/
  | pushAppend
  /-- the wait loop of `worker_main` -/
  | wait
  /-- `pthread_cond_wait` returns without a signal -/
  | wake
  | checkExit
  | admitGuard
  | pop
  /-- `task_start`; `created` says whether `server_task_create` succeeds -/
  | start (choice : SlotChoice) (created : Bool)
  | pushBackLock
  | pushFront
  | failPopped
  /-- the start of a task; `gone` is `client_gone` -/
  | enter (gone : Bool)
  | yield
  /-- the task ends its generation -/
  | answer
  /-- `slot_record_catalog` -/
  | release
  | finish
  /-- the loop over the tasks is through -/
  | resumed
  | stopFlag
  | stopLock
  | cancelHead
  /-- the end of `jobs_cancel`, the broadcast and the unlock -/
  | cancelEnd
  /-- `openai_free` joins the worker -/
  | join
deriving DecidableEq, Repr

namespace Scheduler

variable [DecidableEq J]

def init (decision : J → Bool) (slotsCap : ℕ) : Scheduler J :=
  ⟨decision, slotsCap, 1, fun _ => false, .empty, .free, false, [], .top, .idle, fun _ => false,
    [], [], fun _ => 0⟩

/-- A store of `generation_done`, which counts if it is of true. -/
def setDone (s : Scheduler J) (j : J) (done : Bool) : Scheduler J :=
  { s with
    generationDone := Function.update s.generationDone j done
    doneSets := Function.update s.doneSets j (s.doneSets j + if done then 1 else 0) }

/-- What is idle among the slots there are. -/
def Idle (s : Scheduler J) (i : ℕ) : Prop := i < s.nSlots ∧ s.busy i = false

instance (s : Scheduler J) (i : ℕ) : Decidable (s.Idle i) :=
  inferInstanceAs (Decidable (_ ∧ _))

/-- The candidates are idle slots, and one is named if there is any. -/
def Candidates (s : Scheduler J) (c : SlotChoice) : Prop :=
  (∀ i ∈ c.best, s.Idle i) ∧ (∀ i ∈ c.lru, s.Idle i) ∧
    (c.lru = none → ∀ i < s.nSlots, s.busy i = true)

instance (s : Scheduler J) (c : SlotChoice) : Decidable (s.Candidates c) :=
  inferInstanceAs (Decidable (_ ∧ _ ∧ _))

/-- `job_pick_slot`, with the slots there are after it. -/
def jobPickSlot (s : Scheduler J) (c : SlotChoice) : Scheduler J × Option ℕ :=
  match c.best with
  | some i => (s, some i)
  | none =>
    if s.nSlots < s.slotsCap ∧ c.fresh then
      ({ s with nSlots := s.nSlots + 1, busy := Function.update s.busy s.nSlots false },
        some s.nSlots)
    else (s, c.lru)

/-- `fail_job` -/
def failJob (s : Scheduler J) (j : J) : Scheduler J := s.setDone j true

/-- `task_start`; the worker goes on with `admit_jobs`. -/
def taskStart (s : Scheduler J) (j : J) (c : SlotChoice) (created : Bool) : Scheduler J :=
  match s.jobPickSlot c with
  | (s, none) =>
    if s.tasks ≠ [] then { s with worker := .pushBack j }
    else { s.failJob j with worker := .admitJobs }
  | (s, some slot) =>
    if created then
      { s with
        busy := Function.update s.busy slot true
        tasks := s.tasks ++ [⟨j, slot, false⟩]
        started := s.started ++ [j]
        worker := .admitJobs }
    else { s.failJob j with worker := .admitJobs }

/-- The last task takes the place of the one that ended. -/
def swapRemove {α : Type*} (l : List α) (i : ℕ) : List α :=
  match l.getLast? with
  | some a => (l.set i a).dropLast
  | none => l

/-- A signal or a broadcast of `sch_cv`. -/
def signal (s : Scheduler J) : Scheduler J :=
  if s.worker = .asleep then { s with worker := .top } else s

/-- The worker after its task at `i` has run up to its next yield. -/
def taskEnter (s : Scheduler J) (i : ℕ) (t : OaTask J) (gone : Bool) : Scheduler J :=
  if s.decision t.job then { s with tasks := s.tasks.set i { t with entered := true } }
  else if gone ∨ s.shuttingDown then { s.setDone t.job true with worker := .answered i }
  else { s.setDone t.job false with tasks := s.tasks.set i { t with entered := true } }

/-- An act that cannot be taken changes nothing. -/
def apply (s : Scheduler J) : SchedAct J → Scheduler J
  | .pushLock j =>
    if s.schMtx = .free ∧ j ∉ s.accepted ∧ s.shuttingDown = false then
      { s with schMtx := .conn j }
    else s
  | .pushAppend =>
    match s.schMtx with
    | .conn j =>
      { s with
        queue := s.queue.pushBack j
        accepted := s.accepted ++ [j]
        schMtx := .free }.signal
    | _ => s
  | .wait =>
    if s.worker = .top ∧ s.schMtx = .free then
      if s.queue.head = none ∧ s.tasks = [] ∧ s.shuttingDown = false then
        { s with worker := .asleep }
      else { s with worker := .checkExit }
    else s
  | .wake => s.signal
  | .checkExit =>
    if s.worker = .checkExit then
      if s.tasks = [] ∧ s.shuttingDown then { s with worker := .exited }
      else { s with worker := .admitJobs }
    else s
  | .admitGuard =>
    if s.worker = .admitJobs then
      if s.tasks.length < s.slotsCap ∧ s.shuttingDown = false then { s with worker := .pop }
      else { s with worker := .resume 0 }
    else s
  | .pop =>
    if s.worker = .pop ∧ s.schMtx = .free then
      match s.queue.head with
      | some j => { s with queue := s.queue.popFront j, worker := .start j }
      | none => { s with worker := .resume 0 }
    else s
  | .start c created =>
    match s.worker with
    | .start j => if s.Candidates c then s.taskStart j c created else s
    | _ => s
  | .pushBackLock =>
    match s.worker with
    | .pushBack j =>
      if s.schMtx = .free then
        if s.shuttingDown then { s with worker := .failing j }
        else { s with schMtx := .worker, worker := .pushFront j }
      else s
    | _ => s
  | .pushFront =>
    match s.worker with
    | .pushFront j =>
      { s with queue := s.queue.pushFront j, schMtx := .free, worker := .resume 0 }
    | _ => s
  | .failPopped =>
    match s.worker with
    | .failing j => { s.failJob j with worker := .resume 0 }
    | _ => s
  | .enter gone =>
    match s.worker with
    | .resume i =>
      match s.tasks[i]? with
      | some t => if t.entered then s else s.taskEnter i t gone
      | none => s
    | _ => s
  | .yield =>
    match s.worker with
    | .resume i =>
      match s.tasks[i]? with
      | some t => if t.entered then { s with worker := .resume (i + 1) } else s
      | none => s
    | _ => s
  | .answer =>
    match s.worker with
    | .resume i =>
      match s.tasks[i]? with
      | some t => if t.entered then { s.setDone t.job true with worker := .answered i } else s
      | none => s
    | _ => s
  | .release =>
    match s.worker with
    | .answered i =>
      match s.tasks[i]? with
      | some t =>
        { s with busy := Function.update s.busy t.slot false, worker := .released i }
      | none => s
    | _ => s
  | .finish =>
    match s.worker with
    | .released i => { s with tasks := swapRemove s.tasks i, worker := .resume i }
    | _ => s
  | .resumed =>
    match s.worker with
    | .resume i => if s.tasks.length ≤ i then { s with worker := .top } else s
    | _ => s
  | .stopFlag =>
    if s.stopper = .idle ∨ s.stopper = .stopped then
      { s with shuttingDown := true, stopper := .flagged }
    else s
  | .stopLock =>
    if s.stopper = .flagged ∧ s.schMtx = .free then
      { s with schMtx := .stopper, stopper := .cancelling }
    else s
  | .cancelHead =>
    if s.stopper = .cancelling then
      match s.queue.head with
      | some j => { s.failJob j with queue := { s.queue with head := s.queue.next j } }
      | none => s
    else s
  | .cancelEnd =>
    if s.stopper = .cancelling ∧ s.queue.head = none then
      { s with
        queue := { s.queue with tail := none }
        schMtx := .free
        stopper := .stopped }.signal
    else s
  | .join =>
    if s.stopper = .stopped ∧ s.worker = .exited then { s with stopper := .freed } else s

end Scheduler

end Kappai
