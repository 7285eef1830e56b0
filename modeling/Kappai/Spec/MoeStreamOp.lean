import Kappai.Spec.MoeTasks

/-! `moe_stream_resolve_prep` and the op it returns, whose items threads run side by side. What
other calls do to the layer goes between any two steps. -/

namespace Kappai

/-- How far a miss is. The thread that runs its last chunk commits it, looks up the misses that depend
on it and calls the hook for all of them. -/
inductive MissStage
  | fetching
  | commit
  | deps (todo : List ℕ)
  | hook (todo : List ℕ)
  | closed
deriving DecidableEq

/-- A primary miss of an op, with the ids of the misses that depend on it. `hooked` are the calls of
the hook, each with the out slot it finds. -/
structure MoeOpMiss where
  miss : MoeMiss
  deps : List ℕ
  failed : Bool
  ioErr : Bool
  remaining : ℕ
  stage : MissStage
  hooked : List (ℕ × Option MoeOutSlot)

inductive ChunkStage
  | todo
  | read
  | sub
  | done
deriving DecidableEq

/-- A chunk, with the index of its miss. -/
structure MoeChunk where
  miss : ℕ
  stage : ChunkStage

/-- `moe_stream_resolve_prep` resolves hits and collects misses, then prepares the misses. -/
inductive PrepStage
  | resolve
  | prepare (todo : List MoeMiss)
  | ready

structure MoeStreamOp where
  layer : MoeStreamLayer
  task : MoeTask
  stage : PrepStage
  misses : List MoeOpMiss
  chunks : List MoeChunk
  items : List ℕ

/-- `prep` is a step of `moe_stream_resolve_prep`, `chunks` what `moe_pin_prepare_slot` makes of a miss
if it is at one; `chunk` is a step of an item of `moe_stream_op_fill_run`, `read` how its read goes. -/
inductive MoeOpAct
  | other (layer : MoeStreamLayer)
  | prep (chunks : Option ℕ)
  | chunk (c : ℕ) (read : Bool)
  | advance (i : ℕ)

namespace MoeOpMiss

variable (m : MoeOpMiss)

/-- `miss_entry_status` -/
def fetched : Bool := !m.failed && !m.ioErr

/-- A thread is at it. -/
def busy : Bool := m.stage ≠ .fetching && m.stage ≠ .closed

end MoeOpMiss

namespace MoeStreamOp

def start (layer : MoeStreamLayer) (ids : List (Option ℕ)) (now : UInt64) : MoeStreamOp :=
  ⟨layer, .start true ids now, .resolve, [], [], []⟩

variable (s : MoeStreamOp)

def setMiss (i : ℕ) (m : MoeOpMiss) : MoeStreamOp := { s with misses := s.misses.set i m }

/-- A miss without chunks is finalised at once. -/
def prepareMiss (m : MoeMiss) (todo : List MoeMiss) (chunks : Option ℕ) : MoeStreamOp :=
  let n := chunks.getD 0
  let me : MoeOpMiss :=
    { miss := m
      deps := (s.task.deps.filter fun d => d.2 == m.k).map (·.1)
      failed := chunks.isNone
      ioErr := false
      remaining := n
      stage := if n = 0 then .commit else .fetching
      hooked := [] }
  { s with
    stage := .prepare todo
    misses := s.misses ++ [me]
    chunks := s.chunks ++ List.replicate n ⟨s.misses.length, .todo⟩ }

/-- `pending`, by id -/
def pending : List ℕ :=
  s.misses.flatMap fun m => (if 0 < m.remaining then [m.miss.k] else []) ++ m.deps

/-- An op without chunks is not returned; there is nothing to wait for then, and every id is the
caller's to compute. -/
def setItems : MoeStreamOp :=
  let ks := List.range s.task.call.ids.length
  { s with
    stage := .ready
    items := if s.chunks.isEmpty then ks else ks.filter fun k => k ∉ s.pending }

def prep (chunks : Option ℕ) : MoeStreamOp :=
  match s.stage with
  | .resolve =>
    match s.task.phase with
    | .rewait _ => { s with stage := .prepare s.task.call.misses }
    | _ => { s with layer := (s.task.step s.layer).1, task := (s.task.step s.layer).2 }
  | .prepare todo =>
    if s.misses.any MoeOpMiss.busy then s
    else
      match todo with
      | m :: todo => s.prepareMiss m todo chunks
      | [] => s.setItems
  | .ready => s

/-- A step of `moe_stream_op_fill_run`. -/
def chunk (c : ℕ) (read : Bool) : MoeStreamOp :=
  match s.stage, s.chunks[c]? with
  | .ready, some ch =>
    let move := fun st : ChunkStage => { s with chunks := s.chunks.set c ⟨ch.miss, st⟩ }
    match ch.stage, s.misses[ch.miss]? with
    | .todo, some m => if m.ioErr then move .done else move .read
    | .read, some m => if read then move .sub else (move .sub).setMiss ch.miss { m with ioErr := true }
    | .sub, some m =>
      (move .done).setMiss ch.miss { m with
        remaining := m.remaining - 1
        stage := if m.remaining = 1 then .commit else m.stage }
    | _, _ => s
  | _, _ => s

/-- A step of `moe_stream_op_finalize_miss`, or of the calls of the hook behind it. There is no hook
before the op is returned. -/
def advance (i : ℕ) : MoeStreamOp :=
  match s.misses[i]? with
  | some m =>
    match m.stage with
    | .commit =>
      let r := s.task.call.commitMiss s.layer m.miss m.fetched
      { s.setMiss i { m with stage := .deps m.deps } with
        layer := r.1, task := { s.task with call := r.2 } }
    | .deps (k :: todo) =>
      let r := s.task.call.takeOrInvalid s.layer k
      { s.setMiss i { m with stage := .deps todo } with
        layer := r.1, task := { s.task with call := r.2 } }
    | .deps [] =>
      match s.stage with
      | .ready => s.setMiss i { m with stage := .hook (m.miss.k :: m.deps) }
      | _ => s.setMiss i { m with stage := .closed }
    | .hook (k :: todo) =>
      s.setMiss i { m with stage := .hook todo, hooked := m.hooked ++ [(k, s.task.call.outs[k]?)] }
    | .hook [] => s.setMiss i { m with stage := .closed }
    | _ => s
  | none => s

def apply : MoeOpAct → MoeStreamOp
  | .other layer => { s with layer }
  | .prep chunks => s.prep chunks
  | .chunk c read => s.chunk c read
  | .advance i => s.advance i

/-- Every item has been processed. -/
def through : Bool :=
  (match s.stage with
    | .ready => true
    | _ => false) &&
    s.chunks.all (fun ch => ch.stage == .done) && !s.misses.any MoeOpMiss.busy

/-- `moe_stream_op_finish` finalises the misses that have chunks left. -/
def finishMiss (r : MoeStreamLayer × MoeCall) (m : MoeOpMiss) : MoeStreamLayer × MoeCall :=
  if 0 < m.remaining then
    m.deps.foldl (fun r k => r.2.takeOrInvalid r.1 k) (r.2.commitMiss r.1 m.miss m.fetched)
  else r

/-- `moe_stream_op_finish`: the out slots afterwards, and whether it returns `OK`. -/
def finish : List MoeOutSlot × Bool :=
  if s.chunks.isEmpty then (s.task.call.outs, true)
  else ((s.misses.foldl finishMiss (s.layer, s.task.call)).2.outs, s.misses.all MoeOpMiss.fetched)

end MoeStreamOp

end Kappai
