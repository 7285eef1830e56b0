import Mathlib.Data.Int.Notation
import Mathlib.Data.Nat.Notation
import Mathlib.Logic.Function.Basic

/-! The thread pool. Every step is one access to the shared words, in any order over the threads;
a thread that spins or is parked loads the word it waits for again. Pointers are numbers, and 0 is
`NULL`. -/

namespace Kappai

/-- An `int` that is only compared for equality. -/
abbrev Epoch := BitVec 32

/-- `((int64_t)epoch << 32) | (int64_t)pos` -/
def packCursor (e : Epoch) (pos : ℤ) : BitVec 64 := e.signExtend 64 <<< 32 ||| BitVec.ofInt 64 pos

/-- `(int)(snap >> 32)` -/
def cursorEpoch (snap : BitVec 64) : Epoch := (snap.sshiftRight 32).setWidth 32

/-- `(int)(snap & 0xffffffff)` -/
def cursorPos (snap : BitVec 64) : ℤ := ((snap &&& 0xffffffff#64).setWidth 32).toInt

/-- The arguments of `tpool_parallel_for` but the pool. -/
structure PoolCall where
  nItems : ℤ
  minItemsPerThread : ℤ
  fn : ℕ
  ctx : ℕ
deriving DecidableEq

/-- A chunk that was run: `fn(begin, end, tid, ctx)`. -/
structure PoolChunk where
  fn : ℕ
  ctx : ℕ
  first : ℤ
  last : ℤ
  tid : ℕ
deriving DecidableEq

/-- The words of the pool. The condition variables and the counts of parked threads only decide how
a thread waits. -/
structure Pool where
  epoch : Epoch
  pubGate : Epoch
  activeWorkers : ℕ
  inJob : Bool
  jobFn : ℕ
  jobCtx : ℕ
  jobEnd : ℤ
  chunkSize : ℤ
  nWorkers : ℤ
  cursorEp : BitVec 64
  executed : ℤ
  jobEpoch : Epoch
deriving DecidableEq

/-- `tpool_create` -/
def Pool.init : Pool := ⟨0, 0, 0, false, 0, 0, 0, 1, 0, 0, 0, 0⟩

def tpoolGuidedDivisor : ℤ := 4

def tpoolMinChunksPerThread : ℤ := 32

/-- What `tpool_drain_work` keeps of the job. -/
structure DrainJob where
  fn : ℕ
  ctx : ℕ
  last : ℤ
  minChunk : ℤ
  nActive : ℤ
deriving DecidableEq

/-- `next` for the chunk that starts at `cur`; the sum wraps. -/
def DrainJob.next (j : DrainJob) (cur : ℤ) : ℤ :=
  let chunk := (j.last - cur).tdiv (tpoolGuidedDivisor * j.nActive)
  let chunk := if chunk < j.minChunk then j.minChunk else chunk
  let next := (BitVec.ofInt 32 (cur + chunk)).toInt
  if j.last < next then j.last else next

/-- Where a thread is in `tpool_drain_work`, before the access named. In `run` the chunk is being
run. -/
inductive Drain
  | jobEpoch
  | jobFn
  | jobCtx (fn : ℕ)
  | jobEnd (fn ctx : ℕ)
  | chunkSize (fn ctx : ℕ) (last : ℤ)
  | nWorkers (fn ctx : ℕ) (last minChunk : ℤ)
  | scan (j : DrainJob)
  | claim (j : DrainJob) (snap : BitVec 64) (cur next : ℤ)
  | run (j : DrainJob) (cur next : ℤ)
  | count (j : DrainJob) (cur next : ℤ)
deriving DecidableEq

/-- `tpool_drain_work` for the epoch `e`, which ends with `none`. The exchange may fail for no
reason. -/
def Drain.step (p : Pool) (e : Epoch) (tid : ℕ) (weak : Bool) :
    Drain → Pool × Option Drain × List PoolChunk
  | jobEpoch => (p, if p.jobEpoch = e then some .jobFn else none, [])
  | jobFn => (p, if p.jobFn = 0 then none else some (.jobCtx p.jobFn), [])
  | jobCtx fn => (p, some (.jobEnd fn p.jobCtx), [])
  | jobEnd fn ctx => (p, some (.chunkSize fn ctx p.jobEnd), [])
  | chunkSize fn ctx last => (p, some (.nWorkers fn ctx last p.chunkSize), [])
  | nWorkers fn ctx last minChunk => (p, some (.scan ⟨fn, ctx, last, minChunk, p.nWorkers + 1⟩), [])
  | scan j =>
    let snap := p.cursorEp
    let cur := cursorPos snap
    (p, if cursorEpoch snap ≠ e ∨ j.last ≤ cur then none else some (.claim j snap cur (j.next cur)),
      [])
  | claim j snap cur next =>
    if p.cursorEp = snap ∧ weak = false then
      ({ p with cursorEp := packCursor e next }, some (.run j cur next), [])
    else (p, some (.scan j), [])
  | run j cur next => (p, some (.count j cur next),
      if next - cur ≤ 0 then [] else [⟨j.fn, j.ctx, cur, next, tid⟩])
  | count j cur next => ({ p with executed := p.executed + (next - cur) }, some (.scan j), [])

/-- Where a worker is in `tpool_worker_main`, before the access named; `wait` is
`tpool_wait_epoch`. -/
inductive PoolWorker
  | wait (lastSeen : Epoch)
  | enter (e : Epoch)
  | pubGate (e : Epoch)
  | jobEpoch (e : Epoch) (pubOk : Bool)
  | nWorkers (e : Epoch) (pubOk : Bool) (jobEpochNow : Epoch)
  | drain (e : Epoch) (d : Drain)
  | leave (e : Epoch)
deriving DecidableEq

def PoolWorker.step (p : Pool) (tid : ℕ) (weak : Bool) :
    PoolWorker → Pool × PoolWorker × List PoolChunk
  | wait lastSeen => (p, if p.epoch = lastSeen then .wait lastSeen else .enter p.epoch, [])
  | enter e => ({ p with activeWorkers := p.activeWorkers + 1 }, .pubGate e, [])
  | pubGate e => (p, .jobEpoch e (p.pubGate = e), [])
  | jobEpoch e pubOk => (p, .nWorkers e pubOk p.jobEpoch, [])
  | nWorkers e pubOk jobEpochNow =>
    (p, if pubOk ∧ jobEpochNow = e ∧ 1 ≤ tid ∧ tid ≤ p.nWorkers then .drain e .jobEpoch
      else .leave e, [])
  | drain e d =>
    let r := d.step p e tid weak
    (r.1, match r.2.1 with
      | some d => .drain e d
      | none => .leave e, r.2.2)
  | leave e => ({ p with activeWorkers := p.activeWorkers - 1 }, .wait e, [])

namespace PoolCall

variable (c : PoolCall) (nThreads : ℤ)

/-- `usable` -/
def usable : ℤ :=
  let usable := c.nItems.tdiv (if c.minItemsPerThread < 1 then 1 else c.minItemsPerThread)
  let usable := if usable < 1 then 1 else usable
  if nThreads < usable then nThreads else usable

/-- `chunk_size` -/
def chunkSize : ℤ :=
  let chunkSize := c.nItems.tdiv (c.usable nThreads * tpoolMinChunksPerThread)
  if chunkSize < 1 then 1 else chunkSize

end PoolCall

/-- The stores of a publication between the wait for the workers and `job_epoch`. -/
inductive JobStore
  | jobEnd
  | chunkSize
  | jobFn
  | jobCtx
  | executed
  | cursorEp
  | nWorkers
deriving DecidableEq

def jobStores : List JobStore :=
  [.jobEnd, .chunkSize, .jobFn, .jobCtx, .executed, .cursorEp, .nWorkers]

def JobStore.apply (c : PoolCall) (nThreads : ℤ) (e : Epoch) (p : Pool) : JobStore → Pool
  | jobEnd => { p with jobEnd := c.nItems }
  | chunkSize => { p with chunkSize := c.chunkSize nThreads }
  | jobFn => { p with jobFn := c.fn }
  | jobCtx => { p with jobCtx := c.ctx }
  | executed => { p with executed := 0 }
  | cursorEp => { p with cursorEp := e.signExtend 64 <<< 32 }
  | nWorkers => { p with nWorkers := c.usable nThreads - 1 }

/-- Where the submitting thread is in `tpool_parallel_for`, before the access named. In `inline` it
runs the whole range itself. -/
inductive Submitter
  | idle
  | inJob (c : PoolCall)
  | inline (c : PoolCall)
  | epoch (c : PoolCall)
  | gate (c : PoolCall) (e : Epoch)
  | busy (c : PoolCall) (e : Epoch)
  | retire (c : PoolCall) (e : Epoch)
  | store (c : PoolCall) (e : Epoch) (rest : List JobStore)
  | publish (c : PoolCall) (e : Epoch)
  | wake (c : PoolCall) (e : Epoch)
  | drain (c : PoolCall) (e : Epoch) (d : Drain)
  | await (c : PoolCall) (e : Epoch)
  | close (c : PoolCall) (e : Epoch)
  | free (c : PoolCall) (e : Epoch)
deriving DecidableEq

/-- The call under way. -/
def Submitter.call : Submitter → Option PoolCall
  | idle => none
  | inJob c | inline c | epoch c => some c
  | gate c _ | busy c _ | retire c _ | store c _ _ | publish c _ | wake c _ => some c
  | drain c _ _ | await c _ | close c _ | free c _ => some c

/-- `tpool_parallel_for` -/
def Submitter.step (p : Pool) (nThreads : ℤ) (weak : Bool) :
    Submitter → Pool × Submitter × List PoolChunk
  | idle => (p, .idle, [])
  | inJob c => (p, if p.inJob ∨ c.usable nThreads ≤ 1 then .inline c else .epoch c, [])
  | inline c => (p, .idle, [⟨c.fn, c.ctx, 0, c.nItems, 0⟩])
  | epoch c => (p, .gate c (p.epoch + 1), [])
  | gate c e => ({ p with pubGate := e }, .busy c e, [])
  | busy c e => ({ p with inJob := true }, .retire c e, [])
  | retire c e => (p, if p.activeWorkers = 0 then .store c e jobStores else .retire c e, [])
  | store c e (s :: rest) => (s.apply c nThreads e p, .store c e rest, [])
  | store c e [] => (p, .publish c e, [])
  | publish c e => ({ p with jobEpoch := e }, .wake c e, [])
  | wake c e => ({ p with epoch := e }, .drain c e .jobEpoch, [])
  | drain c e d =>
    let r := d.step p e 0 weak
    (r.1, match r.2.1 with
      | some d => .drain c e d
      | none => .await c e, r.2.2)
  | await c e => (p, if p.executed < c.nItems then .await c e else .close c e, [])
  | close c e => ({ p with pubGate := 0 }, .free c e, [])
  | free _ _ => ({ p with inJob := false }, .idle, [])

/-- The pool with its threads. `ran` has the chunks run since the last call began, `returned` the
calls that have returned with those run until then. -/
structure PoolSystem where
  pool : Pool
  submitter : Submitter
  workers : ℕ → PoolWorker
  ran : List PoolChunk
  returned : List (PoolCall × List PoolChunk)

inductive PoolAct
  | call (c : PoolCall)
  | submit (weak : Bool)
  | work (tid : ℕ) (weak : Bool)
deriving DecidableEq

namespace PoolSystem

def init : PoolSystem := ⟨.init, .idle, fun _ => .wait 0, [], []⟩

/-- One step of a pool of `w` workers. The submitter calls when it is idle. -/
def apply (w : ℕ) (s : PoolSystem) : PoolAct → PoolSystem
  | .call c =>
    if s.submitter = .idle then
      if c.nItems ≤ 0 then { s with returned := s.returned ++ [(c, [])] }
      else { s with submitter := .inJob c, ran := [] }
    else s
  | .submit weak =>
    let r := s.submitter.step s.pool (w + 1) weak
    let ran := s.ran ++ r.2.2
    { s with
      pool := r.1
      submitter := r.2.1
      ran := ran
      returned :=
        match s.submitter.call, r.2.1 with
        | some c, .idle => s.returned ++ [(c, ran)]
        | _, _ => s.returned }
  | .work tid weak =>
    if 1 ≤ tid ∧ tid ≤ w then
      let r := (s.workers tid).step s.pool tid weak
      { s with
        pool := r.1
        workers := Function.update s.workers tid r.2.1
        ran := s.ran ++ r.2.2 }
    else s

end PoolSystem

end Kappai
