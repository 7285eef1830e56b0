import Mathlib.Data.Nat.Notation
import Mathlib.Logic.Function.Basic
import Mathlib.Tactic.Common

/-! The connection threads and the tasks of the server, as far as `interrupt` goes. A request
is marked as gone in two steps, a check under its lock and a write to the context of its slot
after it; a task runs on a slot statement by statement. Any of these may come next. -/

namespace Kappai

variable {ρ σ : Type*}

/-- The part of `oa_gen` and of the threads of its connection. -/
structure OaGen (σ : Type*) where
  arrived : Bool
  /-- `decision`: the request is run by `run_decision`, else by `run_generation`. -/
  decision : Bool
  /-- In the queue of the scheduler. -/
  queued : Bool
  clientGone : Bool
  generationDone : Bool
  /-- The slot whose session `sctx` points to. -/
  sctx : Option σ
  /-- Calls of `gen_mark_client_gone` that found the generation in flight and have not yet
  written. -/
  marking : ℕ
deriving DecidableEq, Repr

/-- Who has set `interrupt`: a disconnect, the task's own token callback, or the shutdown. -/
inductive Writer (ρ : Type*)
  | client (r : ρ)
  | callback (r : ρ)
  | shutdown
deriving DecidableEq, Repr

/-- The statement a task executes next. -/
inductive TaskStmt
  /-- `g->sctx = c` -/
  | bind
  /-- `if (gen_dead(g))` -/
  | check
  /-- `g->generation_done = false` -/
  | reopen
  /-- `c->interrupt = 0` -/
  | clear
  /-- the chat turn or the completion, which looks at `interrupt` -/
  | generate
  /-- `c->interrupt = 0` -/
  | settle
  /-- `c->interrupt = 0` of `run_decision` -/
  | decisionClear
  /-- `g->sctx = c` of `run_decision` -/
  | decisionBind
  /-- `if (!gen_dead(g) && ..)` -/
  | decisionCheck
  /-- `decision_run`, which looks at `interrupt` -/
  | decide
  /-- `g->generation_done = true` under the lock -/
  | finish
  /-- `busy = false` -/
  | release
deriving DecidableEq, Repr

/-- The first statement of `task_main`. -/
def OaGen.firstStmt (g : OaGen σ) : TaskStmt := if g.decision then .decisionClear else .bind

/-- The statements during which `interrupt` is looked at. -/
def TaskStmt.looks : TaskStmt → Bool
  | .generate | .decide => true
  | _ => false

structure SlotRun (ρ : Type*) where
  interrupt : Option (Writer ρ)
  task : Option (ρ × TaskStmt)
deriving DecidableEq, Repr

structure Serving (ρ σ : Type*) where
  gens : ρ → OaGen σ
  slots : σ → SlotRun ρ
  shuttingDown : Bool

inductive ServingAct (ρ σ : Type*)
  /-- `job_push` -/
  | arrive (r : ρ) (decision : Bool)
  /-- `task_start` -/
  | pick (r : ρ) (s : σ)
  /-- `fail_job` -/
  | fail (r : ρ)
  /-- The task of a slot executes its next statement. -/
  | work (s : σ)
  /-- `gen_on_token` stops its own generation. -/
  | callback (s : σ)
  /-- `context_reset_session` and the prefill of a decision clear the flag once more. -/
  | clearAgain (s : σ)
  /-- The locked part of `gen_mark_client_gone`. -/
  | markGone (r : ρ)
  /-- What it does after the lock is released. -/
  | writeInterrupt (r : ρ)
  | shutdown
  /-- The worker interrupts a task on shutdown. -/
  | interruptTask (s : σ)

namespace Serving

variable [DecidableEq ρ] [DecidableEq σ]

def init : Serving ρ σ :=
  ⟨fun _ => ⟨false, false, false, false, false, none, 0⟩, fun _ => ⟨none, none⟩, false⟩

def setGen (w : Serving ρ σ) (r : ρ) (g : OaGen σ) : Serving ρ σ :=
  { w with gens := Function.update w.gens r g }

def setSlot (w : Serving ρ σ) (s : σ) (t : SlotRun ρ) : Serving ρ σ :=
  { w with slots := Function.update w.slots s t }

/-- The next statement of the task of request `r` on slot `s`. -/
def exec (w : Serving ρ σ) (s : σ) (r : ρ) : TaskStmt → Serving ρ σ
  | .bind =>
    (w.setGen r { w.gens r with sctx := some s }).setSlot s
      { w.slots s with task := some (r, .check) }
  | .check =>
    w.setSlot s { w.slots s with
      task := some (r, if (w.gens r).clientGone || w.shuttingDown then .finish else .reopen) }
  | .reopen =>
    (w.setGen r { w.gens r with generationDone := false }).setSlot s
      { w.slots s with task := some (r, .clear) }
  | .clear => w.setSlot s ⟨none, some (r, .generate)⟩
  | .generate => w.setSlot s { w.slots s with task := some (r, .settle) }
  | .settle => w.setSlot s ⟨none, some (r, .finish)⟩
  | .decisionClear => w.setSlot s ⟨none, some (r, .decisionBind)⟩
  | .decisionBind =>
    (w.setGen r { w.gens r with sctx := some s }).setSlot s
      { w.slots s with task := some (r, .decisionCheck) }
  | .decisionCheck =>
    w.setSlot s { w.slots s with
      task := some (r, if (w.gens r).clientGone || w.shuttingDown then .finish else .decide) }
  | .decide => w.setSlot s { w.slots s with task := some (r, .finish) }
  | .finish =>
    (w.setGen r { w.gens r with generationDone := true }).setSlot s
      { w.slots s with task := some (r, .release) }
  | .release => w.setSlot s { w.slots s with task := none }

/-- An act that cannot be taken changes nothing. -/
def apply (w : Serving ρ σ) : ServingAct ρ σ → Serving ρ σ
  | .arrive r decision =>
    if (w.gens r).arrived then w
    else w.setGen r { w.gens r with arrived := true, decision := decision, queued := true }
  | .pick r s =>
    if (w.gens r).queued && (w.slots s).task.isNone then
      (w.setGen r { w.gens r with queued := false }).setSlot s
        { w.slots s with task := some (r, (w.gens r).firstStmt) }
    else w
  | .fail r =>
    if (w.gens r).queued then
      w.setGen r { w.gens r with queued := false, generationDone := true }
    else w
  | .work s =>
    match (w.slots s).task with
    | some (r, stmt) => w.exec s r stmt
    | none => w
  | .callback s =>
    match (w.slots s).task with
    | some (r, .generate) => w.setSlot s { w.slots s with interrupt := some (.callback r) }
    | _ => w
  | .clearAgain s =>
    match (w.slots s).task with
    | some (_, stmt) => if stmt.looks then w.setSlot s { w.slots s with interrupt := none } else w
    | none => w
  | .markGone r =>
    if (w.gens r).arrived then
      w.setGen r { w.gens r with
        clientGone := true
        marking := (w.gens r).marking + if (w.gens r).generationDone then 0 else 1 }
    else w
  | .writeInterrupt r =>
    if 0 < (w.gens r).marking then
      let w' := w.setGen r { w.gens r with marking := (w.gens r).marking - 1 }
      match (w.gens r).sctx with
      | some s => w'.setSlot s { w'.slots s with interrupt := some (.client r) }
      | none => w'
    else w
  | .shutdown => { w with shuttingDown := true }
  | .interruptTask s =>
    if w.shuttingDown && (w.slots s).task.isSome then
      w.setSlot s { w.slots s with interrupt := some .shutdown }
    else w

end Serving

end Kappai
