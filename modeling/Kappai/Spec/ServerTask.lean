import Mathlib.Data.Nat.Notation
import Mathlib.Tactic.Common

/-! The threaded `server_task`: the scheduler thread and the thread of the task share a mutex,
a condition variable and the flags `running` and `done`. Each statement under the mutex is a
step of its own, and a thread that waits on the condition variable may also wake up unasked. -/

namespace Kappai

/-- The statement of `server_task_resume` the scheduler executes next. -/
inductive SchedAt
  /-- Scheduler code that is not in `server_task_resume`. -/
  | outside
  /-- `pthread_mutex_lock` -/
  | lock
  /-- `if (!task->done)` and the two statements that hand over -/
  | test
  /-- `while (task->running)` -/
  | loop
  /-- In `pthread_cond_wait`, the mutex given up. -/
  | asleep
  /-- In `pthread_cond_wait`, about to take the mutex back. -/
  | woken
  /-- `bool done = task->done` and the unlock. -/
  | unlock
  /-- `server_task_join` has returned. -/
  | joined
deriving DecidableEq, Repr

/-- The statement of `server_task_main` or `server_task_yield` the task executes next. Both
wait for `running` in the same loop. -/
inductive TaskAt
  | startLock
  /-- `while (!task->running)` -/
  | loop
  | asleep
  | woken
  | unlock
  /-- `task->fn`, outside of `server_task_yield`. -/
  | body
  | yieldLock
  /-- `task->running = false` and the broadcast. -/
  | yieldSet
  | endLock
  /-- `task->running = false`, `task->done = true` and the broadcast. -/
  | endSet
  | endUnlock
  | exited
deriving DecidableEq, Repr

inductive TaskSide
  | scheduler
  | task
deriving DecidableEq, Repr

/-- What passes control, or returns it. -/
inductive TaskEvent
  /-- A resume sets `running`. -/
  | resume
  /-- The body starts, or a yield returns. -/
  | enter
  /-- The task clears `running`, in a yield or at its end. -/
  | leave (done : Bool)
  /-- A resume returns. -/
  | resumed (done : Bool)
deriving DecidableEq, Repr

structure ServerTask where
  sched : SchedAt
  task : TaskAt
  /-- Who holds `mtx`. -/
  lock : Option TaskSide
  running : Bool
  done : Bool
  log : List TaskEvent
deriving DecidableEq, Repr

inductive TaskAct
  /-- The scheduler calls `server_task_resume`. -/
  | resume
  /-- The scheduler calls `server_task_join`, which returns when the thread has exited. -/
  | join
  /-- The scheduler executes its next statement. -/
  | sched
  /-- The body calls `server_task_yield`. -/
  | yield
  /-- The body returns. -/
  | finish
  /-- The task executes its next statement. -/
  | task
  /-- A wake-up nobody asked for. -/
  | spuriousSched
  | spuriousTask
deriving DecidableEq, Repr

namespace ServerTask

/-- `server_task_create`: the new thread has not yet taken the mutex. -/
def init : ServerTask where
  sched := .outside
  task := .startLock
  lock := none
  running := false
  done := false
  log := []

/-- `pthread_cond_broadcast` -/
def broadcast (t : ServerTask) : ServerTask :=
  { t with
    sched := if t.sched = .asleep then .woken else t.sched
    task := if t.task = .asleep then .woken else t.task }

def schedLock (t : ServerTask) (next : SchedAt) : ServerTask :=
  if t.lock = none then { t with lock := some .scheduler, sched := next } else t

def taskLock (t : ServerTask) (next : TaskAt) : ServerTask :=
  if t.lock = none then { t with lock := some .task, task := next } else t

/-- `task->running = true` and the broadcast. -/
def handOver (t : ServerTask) : ServerTask :=
  { t.broadcast with running := true, sched := .loop, log := t.log ++ [.resume] }

/-- `task->running = false` and the broadcast, at the end of the task with `task->done = true`
between them. -/
def leave (t : ServerTask) (done : Bool) (next : TaskAt) : ServerTask :=
  { t.broadcast with
    running := false
    done := t.done || done
    task := next
    log := t.log ++ [.leave done] }

/-- A statement of `server_task_resume`. -/
def schedStep (t : ServerTask) : ServerTask :=
  match t.sched with
  | .lock => t.schedLock .test
  | .test => if t.done then { t with sched := .unlock } else t.handOver
  | .loop =>
    if t.running then { t with lock := none, sched := .asleep } else { t with sched := .unlock }
  | .woken => t.schedLock .loop
  | .unlock => { t with lock := none, sched := .outside, log := t.log ++ [.resumed t.done] }
  | .outside | .asleep | .joined => t

/-- A statement of `server_task_main` or `server_task_yield`. -/
def taskStep (t : ServerTask) : ServerTask :=
  match t.task with
  | .startLock | .woken => t.taskLock .loop
  | .loop =>
    if t.running then { t with task := .unlock } else { t with lock := none, task := .asleep }
  | .unlock => { t with lock := none, task := .body, log := t.log ++ [.enter] }
  | .yieldLock => t.taskLock .yieldSet
  | .yieldSet => t.leave false .loop
  | .endLock => t.taskLock .endSet
  | .endSet => t.leave true .endUnlock
  | .endUnlock => { t with lock := none, task := .exited }
  | .asleep | .body | .exited => t

/-- An act that cannot be taken changes nothing. -/
def apply (t : ServerTask) : TaskAct → ServerTask
  | .resume => if t.sched = .outside then { t with sched := .lock } else t
  | .join =>
    if t.sched = .outside ∧ t.task = .exited then { t with sched := .joined } else t
  | .sched => t.schedStep
  | .yield => if t.task = .body then { t with task := .yieldLock } else t
  | .finish => if t.task = .body then { t with task := .endLock } else t
  | .task => t.taskStep
  | .spuriousSched => if t.sched = .asleep then { t with sched := .woken } else t
  | .spuriousTask => if t.task = .asleep then { t with task := .woken } else t

end ServerTask

/-- Who has control, seen from the events alone: a task that is parked, about to be entered,
inside its body, left again by a yield or for good, or over. -/
inductive TaskPhase
  | parked
  | handed
  | inside
  | left (done : Bool)
  | finished
deriving DecidableEq, Repr

/-- The only order in which control is passed. A resume returns what the task left with, and
resuming a task that is over returns at once. -/
def TaskPhase.next : TaskPhase → TaskEvent → Option TaskPhase
  | .parked, .resume => some .handed
  | .handed, .enter => some .inside
  | .inside, .leave done => some (.left done)
  | .left false, .resumed false => some .parked
  | .left true, .resumed true => some .finished
  | .finished, .resumed true => some .finished
  | _, _ => none

/-- The phase a log leads to, if it is in order. -/
def taskPhase (log : List TaskEvent) : Option TaskPhase := log.foldlM TaskPhase.next .parked

/-- An event comes right after the one it answers, given the events before it: a resume after
the last one returned, an entry after a resume, a resume's return after the task left, with what
it left with. Resuming a task that is over returns at once. -/
def Answers (before : List TaskEvent) : TaskEvent → Prop
  | .resume => before = [] ∨ before.getLast? = some (.resumed false)
  | .enter => before.getLast? = some .resume
  | .leave _ => before.getLast? = some .enter
  | .resumed done =>
    before.getLast? = some (.leave done) ∨ before.getLast? = some (.resumed true) ∧ done = true

end Kappai
