import Kappai.Sanity.ThreadPool

/-! Every index of a job is run once before its call returns, and no worker runs one afterwards,
whatever the order of the steps. -/

namespace Kappai

/-- Where a thread is in `tpool_drain_work`, if it is there. -/
def PoolWorker.draining : PoolWorker → Option Drain
  | drain _ d => some d
  | _ => none

def Submitter.draining : Submitter → Option Drain
  | drain _ _ d => some d
  | _ => none

/-- The threads in `tpool_drain_work`. -/
def crewOf (sub : Option Drain) (ws : ℕ → PoolWorker) (t : ℕ) : Option Drain :=
  if t = 0 then sub else (ws t).draining

theorem crewOf_work (sub : Option Drain) (ws : ℕ → PoolWorker) {tid : ℕ} (ht : 1 ≤ tid)
    (wk : PoolWorker) :
    crewOf sub (Function.update ws tid wk) = Function.update (crewOf sub ws) tid wk.draining := by
  funext t
  unfold crewOf
  by_cases htid : t = tid
  · rw [htid, Function.update_self, Function.update_self, if_neg (by omega)]
  · rw [Function.update_of_ne htid, Function.update_of_ne htid]

theorem crewOf_submit (sub sub' : Option Drain) (ws : ℕ → PoolWorker) :
    crewOf sub' ws = Function.update (crewOf sub ws) 0 sub' := by
  funext t
  unfold crewOf
  by_cases ht : t = 0
  · rw [ht, Function.update_self, if_pos rfl]
  · rw [Function.update_of_ne ht, if_neg ht, if_neg ht]

/-- A worker that drains a job, or is about to, does so for the job that the pool has. -/
def PoolWorker.Joins (p : Pool) : PoolWorker → Prop
  | nWorkers e pubOk jobEpochNow => pubOk = true → jobEpochNow = e → e = p.jobEpoch
  | drain e _ => e = p.jobEpoch
  | _ => True

/-- While the words of the job for `e` are written no worker drains one or is about to. -/
def PoolWorker.StaysOut (e : Epoch) : PoolWorker → Prop
  | jobEpoch e' pubOk => pubOk = true → e' = e
  | nWorkers e' pubOk jobEpochNow => pubOk = true → jobEpochNow ≠ e'
  | drain _ _ => False
  | _ => True

/-- In the count of the active workers. -/
def PoolWorker.active : PoolWorker → ℕ
  | wait _ | enter _ => 0
  | _ => 1

variable {w : ℕ} {p : Pool} {pos : ℤ} {tid : ℕ} {weak : Bool}

theorem Crew.stay {team : ℕ → Option Drain} (h : Crew w p team pos) {t : ℕ} (hteam : team t = none)
    {p' : Pool} (hs : SameJob p p') (hcur : p'.cursorEp = p.cursorEp)
    (hexec : p'.executed = p.executed) :
    CrewStep w p p' team (Function.update team t none) pos pos [] := by
  rw [← hteam, Function.update_eq_self]
  exact h.idle hs hcur hexec

theorem PoolWorker.crewStep (weak : Bool) {team : ℕ → Option Drain} {wk : PoolWorker} (h : Crew w p team pos)
    (hj : wk.Joins p) (hteam : team tid = wk.draining) (ht : tid < w + 1) :
    ∃ pos', CrewStep w p (wk.step p tid weak).1 team
        (Function.update team tid (wk.step p tid weak).2.1.draining) pos pos'
        (wk.step p tid weak).2.2 ∧
      (wk.step p tid weak).2.1.Joins (wk.step p tid weak).1 := by
  cases wk with
  | wait lastSeen =>
    simp only [PoolWorker.step]
    split_ifs <;> exact ⟨pos, h.stay hteam (.refl p) rfl rfl, trivial⟩
  | enter e => exact ⟨pos, h.stay hteam ⟨rfl, rfl, rfl, rfl, rfl, rfl⟩ rfl rfl, trivial⟩
  | pubGate e => exact ⟨pos, h.stay hteam (.refl p) rfl rfl, trivial⟩
  | jobEpoch e pubOk =>
    exact ⟨pos, h.stay hteam (.refl p) rfl rfl, fun _ hnow => hnow.symm⟩
  | nWorkers e pubOk jobEpochNow =>
    simp only [PoolWorker.step]
    split_ifs with hjoin
    · exact ⟨pos, h.join ht hteam, hj hjoin.1 hjoin.2.1⟩
    · exact ⟨pos, h.stay hteam (.refl p) rfl rfl, trivial⟩
  | drain e d =>
    obtain rfl : e = p.jobEpoch := hj
    obtain ⟨pos', hs⟩ := h.drain ht hteam tid weak
    simp only [PoolWorker.step]
    generalize d.step p p.jobEpoch tid weak = out at hs ⊢
    obtain ⟨p', od, cs⟩ := out
    cases od with
    | none => exact ⟨pos', hs, trivial⟩
    | some d' => exact ⟨pos', hs, hs.same.jobEpoch.symm⟩
  | leave e => exact ⟨pos, h.stay hteam ⟨rfl, rfl, rfl, rfl, rfl, rfl⟩ rfl rfl, trivial⟩

theorem PoolWorker.Joins.same {wk : PoolWorker} {p' : Pool} (h : wk.Joins p) (hs : SameJob p p') :
    wk.Joins p' := by
  unfold PoolWorker.Joins at h ⊢
  rw [hs.jobEpoch]
  exact h

theorem Drain.step_control (p : Pool) (tid : ℕ) (weak : Bool) (d : Drain) (e : Epoch) :
    (d.step p e tid weak).1.epoch = p.epoch ∧ (d.step p e tid weak).1.pubGate = p.pubGate ∧
      (d.step p e tid weak).1.activeWorkers = p.activeWorkers := by
  cases d with
  | claim j snap cur next =>
    rw [Drain.step]
    split_ifs <;> exact ⟨rfl, rfl, rfl⟩
  | _ => exact ⟨rfl, rfl, rfl⟩

/-- Only the submitting thread writes the epoch and the gate. -/
theorem PoolWorker.step_gate (wk : PoolWorker) :
    (wk.step p tid weak).1.epoch = p.epoch ∧ (wk.step p tid weak).1.pubGate = p.pubGate := by
  cases wk with
  | drain e d => exact ⟨(d.step_control p tid weak e).1, (d.step_control p tid weak e).2.1⟩
  | _ => exact ⟨rfl, rfl⟩

/-- A step of a worker keeps the count of the active ones. -/
theorem PoolWorker.step_active (tid : ℕ) (weak : Bool) {wk : PoolWorker} (h : wk.active ≤ p.activeWorkers) :
    (wk.step p tid weak).1.activeWorkers + wk.active =
      p.activeWorkers + (wk.step p tid weak).2.1.active := by
  cases wk with
  | wait lastSeen =>
    simp only [PoolWorker.step]
    split_ifs <;> rfl
  | nWorkers e pubOk jobEpochNow =>
    simp only [PoolWorker.step]
    split_ifs <;> rfl
  | drain e d =>
    simp only [PoolWorker.step, (d.step_control p tid weak e).2.2]
    cases (d.step p e tid weak).2.1 <;> rfl
  | leave e => exact Nat.sub_add_cancel h
  | _ => rfl

/-- While a job is written workers come and go. -/
theorem PoolWorker.step_staysOut (tid : ℕ) (weak : Bool) {wk : PoolWorker} {e : Epoch} (h : wk.StaysOut e)
    (hgate : p.pubGate = e) (hjob : p.jobEpoch ≠ e) :
    ∃ n, (wk.step p tid weak).1 = { p with activeWorkers := n } ∧
      (wk.step p tid weak).2.1.StaysOut e ∧ (wk.step p tid weak).2.2 = [] := by
  cases wk with
  | wait lastSeen =>
    simp only [PoolWorker.step]
    split_ifs <;> exact ⟨p.activeWorkers, rfl, trivial, trivial⟩
  | enter e' => exact ⟨p.activeWorkers + 1, rfl, trivial, rfl⟩
  | pubGate e' =>
    refine ⟨p.activeWorkers, rfl, fun hok => ?_, rfl⟩
    rw [← of_decide_eq_true hok, hgate]
  | jobEpoch e' pubOk =>
    refine ⟨p.activeWorkers, rfl, fun hok => ?_, rfl⟩
    rw [h hok]
    exact hjob
  | nWorkers e' pubOk jobEpochNow =>
    have hout : ¬(pubOk = true ∧ jobEpochNow = e' ∧ 1 ≤ tid ∧ (tid : ℤ) ≤ p.nWorkers) :=
      fun hjoin => h hjoin.1 hjoin.2.1
    refine ⟨p.activeWorkers, rfl, ?_, rfl⟩
    simp only [PoolWorker.step, if_neg hout]
    exact trivial
  | drain e' d => exact absurd h id
  | leave e' => exact ⟨p.activeWorkers - 1, rfl, trivial, rfl⟩

variable {sub : Option Drain} {ws : ℕ → PoolWorker} {ran : List PoolChunk} {c : PoolCall} {e : Epoch}

/-- A worker moves while the others that drain the job hold its words. -/
theorem crewOf_workStep (weak : Bool) (hj : ∀ t, (ws t).Joins p) (h : Crew w p (crewOf sub ws) pos)
    (ht : 1 ≤ tid ∧ tid ≤ w) :
    ∃ pos', CrewStep w p ((ws tid).step p tid weak).1 (crewOf sub ws)
        (crewOf sub (Function.update ws tid ((ws tid).step p tid weak).2.1)) pos pos'
        ((ws tid).step p tid weak).2.2 ∧
      ∀ t, (Function.update ws tid ((ws tid).step p tid weak).2.1 t).Joins
        ((ws tid).step p tid weak).1 := by
  have hteam : crewOf sub ws tid = (ws tid).draining := if_neg (by omega)
  obtain ⟨pos', hs, hjoins⟩ := PoolWorker.crewStep weak h (hj tid) hteam (by omega)
  rw [crewOf_work sub ws ht.1]
  refine ⟨pos', hs, fun t => ?_⟩
  by_cases htid : t = tid
  · rw [htid, Function.update_self]
    exact hjoins
  · rw [Function.update_of_ne htid]
    exact (hj t).same hs.same

/-- No job is under way: the last one is all counted. -/
structure Rests (w : ℕ) (p : Pool) (ws : ℕ → PoolWorker) : Prop where
  joins : ∀ t, (ws t).Joins p
  crew : Crew w p (crewOf none ws) p.jobEnd
  none : taken w (crewOf none ws) = 0
  epoch : p.jobEpoch = p.epoch

/-- A job is being written. -/
structure Writes (p : Pool) (ws : ℕ → PoolWorker) (e : Epoch) : Prop where
  out : ∀ t, (ws t).StaysOut e
  epoch : p.jobEpoch = p.epoch
  next : e = p.epoch + 1
  gate : p.pubGate = e

/-- The words of the job are those of the call. -/
structure PoolCall.Written (c : PoolCall) (w : ℕ) (e : Epoch) (p : Pool) : Prop where
  jobEnd : p.jobEnd = c.nItems
  chunkSize : p.chunkSize = c.chunkSize (w + 1)
  jobFn : p.jobFn = c.fn
  jobCtx : p.jobCtx = c.ctx
  executed : p.executed = 0
  cursorEp : p.cursorEp = e.signExtend 64 <<< 32
  nWorkers : p.nWorkers = c.usable (w + 1) - 1

/-- The job of the call is published, and its cursor is at `pos`. -/
structure Serves (w : ℕ) (p : Pool) (c : PoolCall) (e : Epoch) (sub : Option Drain)
    (ws : ℕ → PoolWorker) (ran : List PoolChunk) (pos : ℤ) : Prop where
  joins : ∀ t, (ws t).Joins p
  jobEpoch : p.jobEpoch = e
  jobFn : p.jobFn = c.fn
  jobCtx : p.jobCtx = c.ctx
  jobEnd : p.jobEnd = c.nItems
  crew : Crew w p (crewOf sub ws) pos
  covered : Covered w ran (crewOf sub ws) pos
  chunks : ∀ ch ∈ ran, ch.Of p

/-- There is something to do, and no sum of the chunks exceeds an `int`. -/
structure PoolCall.Fits (c : PoolCall) (w : ℕ) : Prop where
  pos : 0 < c.nItems
  small : c.nItems + c.chunkSize (w + 1) < 2 ^ 31

/-- A call has begun, and nothing was run for it. -/
structure Called (w : ℕ) (p : Pool) (ws : ℕ → PoolWorker) (ran : List PoolChunk) (c : PoolCall) :
    Prop where
  rests : Rests w p ws
  ran : ran = []
  fits : c.Fits w

/-- All of the job is counted. -/
structure Drained (w : ℕ) (p : Pool) (c : PoolCall) (e : Epoch) (ws : ℕ → PoolWorker)
    (ran : List PoolChunk) : Prop where
  serves : Serves w p c e none ws ran c.nItems
  none : taken w (crewOf none ws) = 0
  epoch : p.epoch = e

/-- What holds in each state of the submitting thread. -/
def PhaseOk (w : ℕ) (p : Pool) (ws : ℕ → PoolWorker) (ran : List PoolChunk) : Submitter → Prop
  | .idle => Rests w p ws
  | .inJob c | .inline c => Called w p ws ran c
  | .epoch c => Called w p ws ran c ∧ 1 < c.usable (w + 1)
  | .gate c e => Called w p ws ran c ∧ 1 < c.usable (w + 1) ∧ e = p.epoch + 1
  | .busy c e | .retire c e =>
    Called w p ws ran c ∧ 1 < c.usable (w + 1) ∧ e = p.epoch + 1 ∧ p.pubGate = e
  | .store c e rest => Writes p ws e ∧ ran = [] ∧ c.Fits w ∧ 1 < c.usable (w + 1) ∧
      c.Written w e (rest.foldl (JobStore.apply c (w + 1) e) p)
  | .publish c e => Writes p ws e ∧ ran = [] ∧ c.Fits w ∧ 1 < c.usable (w + 1) ∧ c.Written w e p
  | .wake c e => ∃ pos, Serves w p c e none ws ran pos
  | .drain c e d => p.epoch = e ∧ ∃ pos, Serves w p c e (some d) ws ran pos
  | .await c e => p.epoch = e ∧ ∃ pos, Serves w p c e none ws ran pos
  | .close c e | .free c e => Drained w p c e ws ran

/-- Every index of the call was run once, and nothing else. -/
structure PoolCall.Done (c : PoolCall) (ran : List PoolChunk) : Prop where
  once : ∀ i, 0 ≤ i → i < c.nItems → ran.countP (PoolChunk.covers i) = 1
  chunks : ∀ ch ∈ ran, ch.fn = c.fn ∧ ch.ctx = c.ctx ∧ 0 ≤ ch.first ∧ ch.last ≤ c.nItems

/-- The invariant. -/
structure PoolSystem.Ok (w : ℕ) (s : PoolSystem) : Prop where
  active : s.pool.activeWorkers = tally (w + 1) PoolWorker.active s.workers
  outside : ∀ t, t = 0 ∨ w < t → s.workers t = .wait 0
  phase : PhaseOk w s.pool s.workers s.ran s.submitter
  returned : ∀ r ∈ s.returned, r.1.Done r.2

/-! ### Steps of the workers -/

theorem Rests.work (weak : Bool) (h : Rests w p ws) (ht : 1 ≤ tid ∧ tid ≤ w) :
    Rests w ((ws tid).step p tid weak).1
        (Function.update ws tid ((ws tid).step p tid weak).2.1) ∧
      ((ws tid).step p tid weak).2.2 = [] := by
  obtain ⟨pos', hs, hjoins⟩ := crewOf_workStep weak h.joins h.crew ht
  obtain ⟨hcs, hnone⟩ := hs.spent rfl h.none
  have hpos : pos' = p.jobEnd := by
    have hle := hs.crew.at_.le
    rw [hs.same.jobEnd] at hle
    exact le_antisymm hle hs.le
  refine ⟨⟨hjoins, ?_, hnone, ?_⟩, hcs⟩
  · rw [hs.same.jobEnd, ← hpos]
    exact hs.crew
  · rw [hs.same.jobEpoch, (PoolWorker.step_gate _).1, h.epoch]

theorem epoch_ne_succ (e : Epoch) : e ≠ e + 1 := by
  intro h
  have hnat := congrArg BitVec.toNat h
  have hone : (1 : Epoch).toNat = 1 := rfl
  rw [BitVec.toNat_add, hone] at hnat
  have := e.isLt
  omega

theorem Writes.work (tid : ℕ) (weak : Bool) (h : Writes p ws e) :
    ∃ n, ((ws tid).step p tid weak).1 = { p with activeWorkers := n } ∧
      Writes { p with activeWorkers := n } (Function.update ws tid ((ws tid).step p tid weak).2.1) e ∧
      ((ws tid).step p tid weak).2.2 = [] := by
  have hne : p.jobEpoch ≠ e := by
    rw [h.epoch, h.next]
    exact epoch_ne_succ p.epoch
  obtain ⟨n, heq, hout, hcs⟩ := PoolWorker.step_staysOut tid weak (h.out tid) h.gate hne
  refine ⟨n, heq, ⟨fun t => ?_, h.epoch, h.next, h.gate⟩, hcs⟩
  by_cases ht : t = tid
  · rw [ht, Function.update_self]
    exact hout
  · rw [Function.update_of_ne ht]
    exact h.out t

theorem PoolChunk.Of.same {ch : PoolChunk} {p' : Pool} (h : ch.Of p) (hs : SameJob p p') :
    ch.Of p' :=
  ⟨by rw [hs.jobFn, h.fn], by rw [hs.jobCtx, h.ctx], h.first, by rw [hs.jobEnd]; exact h.last⟩

/-- Whoever of the crew moves, the job goes on being served. -/
theorem Serves.step {p' : Pool} {sub' : Option Drain} {ws' : ℕ → PoolWorker} {pos' : ℤ}
    {cs : List PoolChunk} (h : Serves w p c e sub ws ran pos)
    (hs : CrewStep w p p' (crewOf sub ws) (crewOf sub' ws') pos pos' cs)
    (hjoins : ∀ t, (ws' t).Joins p') : Serves w p' c e sub' ws' (ran ++ cs) pos' where
  joins := hjoins
  jobEpoch := hs.same.jobEpoch.trans h.jobEpoch
  jobFn := hs.same.jobFn.trans h.jobFn
  jobCtx := hs.same.jobCtx.trans h.jobCtx
  jobEnd := hs.same.jobEnd.trans h.jobEnd
  crew := hs.crew
  covered := hs.covered ran h.covered
  chunks ch hch := by
    rcases List.mem_append.1 hch with hch | hch
    · exact (h.chunks ch hch).same hs.same
    · exact (hs.chunks ch hch).same hs.same

theorem Called.work (h : Called w p ws ran c) (ht : 1 ≤ tid ∧ tid ≤ w) :
    Called w ((ws tid).step p tid weak).1
      (Function.update ws tid ((ws tid).step p tid weak).2.1)
      (ran ++ ((ws tid).step p tid weak).2.2) c := by
  obtain ⟨hr, hcs⟩ := h.rests.work weak ht
  exact ⟨hr, by rw [h.ran, hcs]; rfl, h.fits⟩

theorem Drained.work (h : Drained w p c e ws ran) (ht : 1 ≤ tid ∧ tid ≤ w) :
    Drained w ((ws tid).step p tid weak).1 c e
      (Function.update ws tid ((ws tid).step p tid weak).2.1)
      (ran ++ ((ws tid).step p tid weak).2.2) := by
  obtain ⟨pos', hs, hjoins⟩ := crewOf_workStep weak h.serves.joins h.serves.crew ht
  have hpos : pos' = c.nItems := by
    have hle := hs.crew.at_.le
    rw [hs.same.jobEnd, h.serves.jobEnd] at hle
    exact le_antisymm hle hs.le
  have hserves := h.serves.step hs hjoins
  rw [hpos] at hserves
  exact ⟨hserves, (hs.spent h.serves.jobEnd.symm h.none).2, (PoolWorker.step_gate _).1.trans h.epoch⟩

theorem JobStore.foldl_active (rest : List JobStore) (p : Pool) (n : ℕ) :
    rest.foldl (JobStore.apply c (w + 1) e) { p with activeWorkers := n } =
      { rest.foldl (JobStore.apply c (w + 1) e) p with activeWorkers := n } := by
  induction rest generalizing p with
  | nil => rfl
  | cons s rest ih =>
    rw [List.foldl_cons, List.foldl_cons, ← ih]
    cases s <;> rfl

theorem PoolCall.Written.active (h : c.Written w e p) (n : ℕ) :
    c.Written w e { p with activeWorkers := n } := ⟨h.1, h.2, h.3, h.4, h.5, h.6, h.7⟩

theorem PhaseOk.work {sb : Submitter} (h : PhaseOk w p ws ran sb) (ht : 1 ≤ tid ∧ tid ≤ w) :
    PhaseOk w ((ws tid).step p tid weak).1 (Function.update ws tid ((ws tid).step p tid weak).2.1)
      (ran ++ ((ws tid).step p tid weak).2.2) sb := by
  cases sb with
  | idle => exact (Rests.work weak h ht).1
  | inJob c => exact Called.work h ht
  | inline c => exact Called.work h ht
  | epoch c => exact ⟨h.1.work ht, h.2⟩
  | gate c e => exact ⟨h.1.work ht, h.2.1, by rw [(PoolWorker.step_gate _).1]; exact h.2.2⟩
  | busy c e =>
    exact ⟨h.1.work ht, h.2.1, by rw [(PoolWorker.step_gate _).1]; exact h.2.2.1,
      by rw [(PoolWorker.step_gate _).2]; exact h.2.2.2⟩
  | retire c e =>
    exact ⟨h.1.work ht, h.2.1, by rw [(PoolWorker.step_gate _).1]; exact h.2.2.1,
      by rw [(PoolWorker.step_gate _).2]; exact h.2.2.2⟩
  | store c e rest =>
    obtain ⟨hw, hran, hfit, husable, hwritten⟩ := h
    obtain ⟨n, heq, hw', hcs⟩ := hw.work tid weak
    rw [heq, hcs, List.append_nil]
    exact ⟨hw', hran, hfit, husable, JobStore.foldl_active rest p n ▸ hwritten.active n⟩
  | publish c e =>
    obtain ⟨hw, hran, hfit, husable, hwritten⟩ := h
    obtain ⟨n, heq, hw', hcs⟩ := hw.work tid weak
    rw [heq, hcs, List.append_nil]
    exact ⟨hw', hran, hfit, husable, hwritten.active n⟩
  | wake c e =>
    obtain ⟨pos, hr⟩ := h
    obtain ⟨pos', hs, hjoins⟩ := crewOf_workStep weak hr.joins hr.crew ht
    exact ⟨pos', hr.step hs hjoins⟩
  | drain c e d =>
    obtain ⟨he, pos, hr⟩ := h
    obtain ⟨pos', hs, hjoins⟩ := crewOf_workStep weak hr.joins hr.crew ht
    exact ⟨(PoolWorker.step_gate _).1.trans he, pos', hr.step hs hjoins⟩
  | await c e =>
    obtain ⟨he, pos, hr⟩ := h
    obtain ⟨pos', hs, hjoins⟩ := crewOf_workStep weak hr.joins hr.crew ht
    exact ⟨(PoolWorker.step_gate _).1.trans he, pos', hr.step hs hjoins⟩
  | close c e => exact Drained.work h ht
  | free c e => exact Drained.work h ht

/-! ### Steps of the submitting thread -/

/-- The words of the job and the count stay as they are. -/
theorem Rests.control (h : Rests w p ws) {p' : Pool} (hs : SameJob p p')
    (hcur : p'.cursorEp = p.cursorEp) (hexec : p'.executed = p.executed)
    (hepoch : p'.epoch = p.epoch) : Rests w p' ws where
  joins t := (h.joins t).same hs
  crew := by
    rw [hs.jobEnd]
    exact (h.crew.idle hs hcur hexec).crew
  none := h.none
  epoch := by rw [hs.jobEpoch, hepoch, h.epoch]

theorem Called.control (h : Called w p ws ran c) {p' : Pool} (hs : SameJob p p')
    (hcur : p'.cursorEp = p.cursorEp) (hexec : p'.executed = p.executed)
    (hepoch : p'.epoch = p.epoch) : Called w p' ws ran c :=
  ⟨h.rests.control hs hcur hexec hepoch, h.ran, h.fits⟩

theorem PoolCall.one_le_chunkSize (c : PoolCall) (n : ℤ) : 1 ≤ c.chunkSize n := by
  unfold PoolCall.chunkSize
  dsimp only
  split_ifs <;> omega

/-- With no worker active the words of the job can be written. -/
theorem Called.writes (h : Called w p ws ran c) (hnext : e = p.epoch + 1) (hgate : p.pubGate = e)
    (hidle : ∀ t, (ws t).active = 0) : Writes p ws e := by
  refine ⟨fun t => ?_, h.rests.epoch, hnext, hgate⟩
  have hz := hidle t
  cases hwk : ws t with
  | wait lastSeen => exact trivial
  | enter e => exact trivial
  | _ =>
    rw [hwk] at hz
    cases hz

/-- The job is published: nobody has taken any of it. -/
theorem Writes.publish (h : Writes p ws e) (hwritten : c.Written w e p) (hfit : c.Fits w)
    (husable : 1 < c.usable (w + 1)) :
    Serves w { p with jobEpoch := e } c e none ws [] 0 := by
  have hteam : ∀ t, crewOf none ws t = none := by
    intro t
    unfold crewOf
    split_ifs with ht
    · rfl
    · have hout := h.out t
      cases hwk : ws t with
      | drain e d =>
        rw [hwk] at hout
        exact absurd hout id
      | _ => rfl
  have hnone : taken w (crewOf none ws) = 0 := tally_zero fun t _ => by rw [hteam]; rfl
  refine ⟨fun t => ?_, rfl, hwritten.jobFn, hwritten.jobCtx, hwritten.jobEnd, ⟨?_, ?_, ?_⟩, ?_, ?_⟩
  · have hout := h.out t
    cases hwk : ws t with
    | nWorkers e' pubOk jobEpochNow =>
      rw [hwk] at hout
      exact fun hok hnow => absurd hnow (hout hok)
    | drain e' d =>
      rw [hwk] at hout
      exact absurd hout id
    | _ => exact trivial
  · refine ⟨?_, le_rfl, ?_, ?_, ?_, ?_⟩
    · change p.cursorEp = packCursor e 0
      rw [hwritten.cursorEp, packCursor]
      simp
    · change 0 ≤ p.jobEnd
      rw [hwritten.jobEnd]
      exact hfit.pos.le
    · change p.jobEnd + p.chunkSize < 2 ^ 31
      rw [hwritten.jobEnd, hwritten.chunkSize]
      exact hfit.small
    · change 1 ≤ p.chunkSize
      rw [hwritten.chunkSize]
      exact c.one_le_chunkSize _
    · change 0 ≤ p.nWorkers
      rw [hwritten.nWorkers]
      omega
  · intro t d hd
    rw [hteam] at hd
    cases hd
  · change p.executed + _ = 0
    rw [hwritten.executed, hnone, add_zero]
  · intro i hi
    have hrun : running w (crewOf none ws) i = 0 := tally_zero fun t _ => by rw [hteam]; rfl
    rw [List.countP_nil, hrun, if_neg (by omega)]
  · intro ch hch
    cases hch

/-- The submitting thread starts to drain its job. -/
theorem Serves.wake (h : Serves w p c e none ws ran pos) :
    Serves w { p with epoch := e } c e (some .jobEpoch) ws (ran ++ []) pos := by
  have hsame : SameJob p { p with epoch := e } := ⟨rfl, rfl, rfl, rfl, rfl, rfl⟩
  have hjoins : ∀ t, (ws t).Joins { p with epoch := e } := fun t => (h.joins t).same hsame
  have hwoken := h.step (h.crew.idle hsame rfl rfl) hjoins
  have hjoin := hwoken.crew.join (Nat.succ_pos w) (if_pos rfl)
  rw [← crewOf_submit] at hjoin
  rw [← List.append_nil ran]
  exact hwoken.step hjoin hjoins

theorem Serves.drain (weak : Bool) {d : Drain} (h : Serves w p c e (some d) ws ran pos) :
    ∃ pos', Serves w (d.step p e 0 weak).1 c e (d.step p e 0 weak).2.1 ws
      (ran ++ (d.step p e 0 weak).2.2) pos' := by
  obtain ⟨pos', hs⟩ := h.crew.drain (Nat.succ_pos w) (d := d) (if_pos rfl) 0 weak
  rw [h.jobEpoch, ← crewOf_submit] at hs
  exact ⟨pos', h.step hs fun t => (h.joins t).same hs.same⟩

/-- When all is counted nothing is left to take, and nothing is being run. -/
theorem Serves.drained (h : Serves w p c e none ws ran pos) (he : p.epoch = e)
    (hall : c.nItems ≤ p.executed) : Drained w p c e ws ran := by
  have hexec := h.crew.executed
  have hle := h.crew.at_.le
  have hnn := h.crew.taken_nonneg
  rw [h.jobEnd] at hle
  have hpos : pos = c.nItems := by omega
  rw [hpos] at h hexec
  exact ⟨h, by omega, he⟩

theorem Drained.control (h : Drained w p c e ws ran) {p' : Pool} (hs : SameJob p p')
    (hcur : p'.cursorEp = p.cursorEp) (hexec : p'.executed = p.executed)
    (hepoch : p'.epoch = p.epoch) : Drained w p' c e ws ran := by
  have hserves := h.serves.step (h.serves.crew.idle hs hcur hexec) fun t =>
    (h.serves.joins t).same hs
  rw [List.append_nil] at hserves
  exact ⟨hserves, h.none, hepoch.trans h.epoch⟩

theorem Drained.done (h : Drained w p c e ws ran) : c.Done ran where
  once i h0 hi := by
    have hcov := h.serves.covered i h0
    rwa [h.serves.crew.running_eq_zero h.none, if_pos hi, Nat.add_zero] at hcov
  chunks ch hch := by
    have hof := h.serves.chunks ch hch
    exact ⟨hof.fn.trans h.serves.jobFn, hof.ctx.trans h.serves.jobCtx, hof.first,
      h.serves.jobEnd ▸ hof.last⟩

theorem Drained.rests (h : Drained w p c e ws ran) : Rests w p ws where
  joins := h.serves.joins
  crew := by
    rw [h.serves.jobEnd]
    exact h.serves.crew
  none := h.none
  epoch := by rw [h.serves.jobEpoch, h.epoch]

/-- The caller runs the whole range itself. -/
theorem PoolCall.done_inline (c : PoolCall) : c.Done [⟨c.fn, c.ctx, 0, c.nItems, 0⟩] where
  once i h0 hi := by
    have hin : PoolChunk.covers i ⟨c.fn, c.ctx, 0, c.nItems, 0⟩ = true := decide_eq_true ⟨h0, hi⟩
    rw [List.countP_singleton, if_pos hin]
  chunks ch hch := by
    rw [List.mem_singleton.1 hch]
    exact ⟨rfl, rfl, le_rfl, le_rfl⟩

theorem JobStore.apply_control (s : JobStore) :
    (s.apply c (w + 1) e p).epoch = p.epoch ∧ (s.apply c (w + 1) e p).pubGate = p.pubGate ∧
      (s.apply c (w + 1) e p).jobEpoch = p.jobEpoch ∧
      (s.apply c (w + 1) e p).activeWorkers = p.activeWorkers := by
  cases s <;> simp only [JobStore.apply, and_self]

theorem Writes.store (h : Writes p ws e) (s : JobStore) : Writes (s.apply c (w + 1) e p) ws e := by
  obtain ⟨hepoch, hgate, hjob, -⟩ := s.apply_control (c := c) (w := w) (e := e) (p := p)
  exact ⟨h.out, by rw [hjob, hepoch, h.epoch], by rw [hepoch]; exact h.next, by rw [hgate, h.gate]⟩

theorem PhaseOk.submit (weak : Bool) {sb : Submitter} (h : PhaseOk w p ws ran sb)
    (hidle : p.activeWorkers = 0 → ∀ t, (ws t).active = 0) :
    PhaseOk w (sb.step p (w + 1) weak).1 ws (ran ++ (sb.step p (w + 1) weak).2.2)
        (sb.step p (w + 1) weak).2.1 ∧
      (sb.step p (w + 1) weak).1.activeWorkers = p.activeWorkers ∧
      ∀ c, sb.call = some c → (sb.step p (w + 1) weak).2.1 = .idle →
        c.Done (ran ++ (sb.step p (w + 1) weak).2.2) := by
  cases sb with
  | idle => exact ⟨h, rfl, fun c hc => by cases hc⟩
  | inJob c =>
    simp only [Submitter.step, List.append_nil]
    split_ifs with hin
    · exact ⟨h, trivial, fun _ _ hno => by cases hno⟩
    · rw [not_or, not_le] at hin
      exact ⟨⟨h, hin.2⟩, trivial, fun _ _ hno => by cases hno⟩
  | inline c =>
    refine ⟨Called.rests h, rfl, fun c' hc _ => ?_⟩
    obtain rfl := Option.some.inj hc
    rw [Called.ran h]
    exact c.done_inline
  | epoch c =>
    simp only [Submitter.step, List.append_nil]
    exact ⟨⟨h.1, h.2, rfl⟩, trivial, fun _ _ hno => by cases hno⟩
  | gate c e =>
    simp only [Submitter.step, List.append_nil]
    exact ⟨⟨h.1.control ⟨rfl, rfl, rfl, rfl, rfl, rfl⟩ rfl rfl rfl, h.2.1, h.2.2, rfl⟩, trivial,
      fun _ _ hno => by cases hno⟩
  | busy c e =>
    simp only [Submitter.step, List.append_nil]
    exact ⟨⟨h.1.control ⟨rfl, rfl, rfl, rfl, rfl, rfl⟩ rfl rfl rfl, h.2⟩, trivial,
      fun _ _ hno => by cases hno⟩
  | retire c e =>
    simp only [Submitter.step, List.append_nil]
    split_ifs with hzero
    · refine ⟨⟨h.1.writes h.2.2.1 h.2.2.2 (hidle hzero), h.1.ran, h.1.fits, h.2.1,
        ⟨rfl, rfl, rfl, rfl, rfl, rfl, rfl⟩⟩, trivial, fun _ _ hno => by cases hno⟩
    · exact ⟨h, trivial, fun _ _ hno => by cases hno⟩
  | store c e rest =>
    obtain ⟨hw, hran, hfit, husable, hwritten⟩ := h
    cases rest with
    | nil =>
      simp only [Submitter.step, List.append_nil]
      exact ⟨⟨hw, hran, hfit, husable, hwritten⟩, trivial, fun _ _ hno => by cases hno⟩
    | cons s rest =>
      rw [List.foldl_cons] at hwritten
      simp only [Submitter.step, List.append_nil]
      exact ⟨⟨hw.store s, hran, hfit, husable, hwritten⟩, s.apply_control.2.2.2, fun _ _ hno => by cases hno⟩
  | publish c e =>
    obtain ⟨hw, hran, hfit, husable, hwritten⟩ := h
    simp only [Submitter.step, List.append_nil]
    rw [hran]
    exact ⟨⟨0, hw.publish hwritten hfit husable⟩, trivial, fun _ _ hno => by cases hno⟩
  | wake c e =>
    obtain ⟨pos, hr⟩ := h
    exact ⟨⟨rfl, pos, hr.wake⟩, rfl, fun _ _ hno => by cases hno⟩
  | drain c e d =>
    obtain ⟨he, pos, hr⟩ := h
    obtain ⟨pos', hr'⟩ := hr.drain weak
    obtain ⟨hepoch, -, hactive⟩ := d.step_control p 0 weak e
    simp only [Submitter.step]
    generalize d.step p e 0 weak = out at hr' hepoch hactive ⊢
    obtain ⟨p', od, cs⟩ := out
    cases od with
    | none => exact ⟨⟨hepoch.trans he, pos', hr'⟩, hactive, fun _ _ hno => by cases hno⟩
    | some d' => exact ⟨⟨hepoch.trans he, pos', hr'⟩, hactive, fun _ _ hno => by cases hno⟩
  | await c e =>
    obtain ⟨he, pos, hr⟩ := h
    simp only [Submitter.step, List.append_nil]
    split_ifs with hless
    · exact ⟨⟨he, pos, hr⟩, trivial, fun _ _ hno => by cases hno⟩
    · exact ⟨hr.drained he (not_lt.1 hless), trivial, fun _ _ hno => by cases hno⟩
  | close c e =>
    simp only [Submitter.step, List.append_nil]
    exact ⟨Drained.control h ⟨rfl, rfl, rfl, rfl, rfl, rfl⟩ rfl rfl rfl, trivial,
      fun _ _ hno => by cases hno⟩
  | free c e =>
    have hfreed : Drained w { p with inJob := false } c e ws ran :=
      Drained.control h ⟨rfl, rfl, rfl, rfl, rfl, rfl⟩ rfl rfl rfl
    simp only [Submitter.step, List.append_nil]
    refine ⟨hfreed.rests, trivial, fun c' hc _ => ?_⟩
    obtain rfl := Option.some.inj hc
    exact hfreed.done

/-! ### Runs -/

theorem rests_init (w : ℕ) : Rests w .init fun _ => .wait 0 where
  joins _ := trivial
  crew := by
    have hteam : ∀ t, crewOf none (fun _ => .wait 0) t = none := by
      intro t
      unfold crewOf
      split_ifs <;> rfl
    refine ⟨⟨by decide, le_rfl, le_rfl, by decide, le_rfl, le_rfl⟩, fun t d hd => ?_, ?_⟩
    · rw [hteam] at hd
      cases hd
    · change (0 : ℤ) + tally _ _ _ = 0
      rw [zero_add]
      exact tally_zero fun t _ => by rw [hteam]; rfl
  none := tally_zero fun t _ => by unfold crewOf; split_ifs <;> rfl
  epoch := rfl

namespace PoolSystem

theorem Ok.init (w : ℕ) : Ok w .init where
  active := (tally_zero fun _ _ => rfl).symm
  outside _ _ := rfl
  phase := rests_init w
  returned _ hr := absurd hr List.not_mem_nil

/-- No sum of the chunks of a call exceeds an `int`. -/
def Small (w : ℕ) : PoolAct → Prop
  | .call c => c.nItems + c.chunkSize (w + 1) < 2 ^ 31
  | _ => True

instance (act : PoolAct) : Decidable (Small w act) :=
  match act with
  | .call _ => inferInstanceAs (Decidable (_ < _))
  | .submit _ => isTrue trivial
  | .work _ _ => isTrue trivial

theorem Ok.apply {s : PoolSystem} {act : PoolAct} (h : s.Ok w) (hsmall : Small w act) :
    (s.apply w act).Ok w := by
  cases act with
  | call c =>
    simp only [PoolSystem.apply]
    split_ifs with hidle hnone
    · refine ⟨h.active, h.outside, h.phase, fun r hr => ?_⟩
      rcases List.mem_append.1 hr with hr | hr
      · exact h.returned r hr
      · rw [List.mem_singleton.1 hr]
        exact ⟨fun i h0 hi => by simp only at hi; omega, fun ch hch => by cases hch⟩
    · have hphase := h.phase
      rw [hidle] at hphase
      exact ⟨h.active, h.outside, ⟨hphase, rfl, not_le.1 hnone, hsmall⟩, h.returned⟩
    · exact h
  | submit weak =>
    have hidle : s.pool.activeWorkers = 0 → ∀ t, (s.workers t).active = 0 := by
      intro hz t
      by_cases ht : w < t
      · rw [h.outside t (Or.inr ht)]
        rfl
      · exact tally_eq_zero (f := PoolWorker.active) (fun _ _ => Nat.zero_le _)
          (h.active.symm.trans hz) (by omega)
    obtain ⟨hphase, hactive, hdone⟩ := h.phase.submit weak hidle
    refine ⟨hactive.trans h.active, h.outside, hphase, fun r hr => ?_⟩
    simp only [PoolSystem.apply] at hr
    split at hr
    · next c hc hend =>
      rcases List.mem_append.1 hr with hr | hr
      · exact h.returned r hr
      · rw [List.mem_singleton.1 hr]
        exact hdone c hc hend
    · exact h.returned r hr
  | work tid weak =>
    simp only [PoolSystem.apply]
    split_ifs with ht
    · have hle : (s.workers tid).active ≤ s.pool.activeWorkers := by
        rw [h.active]
        exact le_tally (f := PoolWorker.active) (fun _ _ => Nat.zero_le _) (by omega)
      refine ⟨?_, fun t hout => ?_, h.phase.work ht, h.returned⟩
      · have hstep := PoolWorker.step_active tid weak hle
        have hsum := tally_update PoolWorker.active s.workers (n := w + 1) (k := tid) (by omega)
          ((s.workers tid).step s.pool tid weak).2.1
        have hactive := h.active
        dsimp only
        omega
      · have hne : t ≠ tid := by omega
        exact (Function.update_of_ne hne _ _).trans (h.outside t hout)
    · exact h

theorem Ok.run {s : PoolSystem} (h : s.Ok w) (acts : List PoolAct)
    (hsmall : ∀ act ∈ acts, Small w act) : (acts.foldl (PoolSystem.apply w) s).Ok w := by
  induction acts generalizing s with
  | nil => exact h
  | cons act acts ih =>
    exact ih (h.apply (hsmall act List.mem_cons_self)) fun a ha =>
      hsmall a (List.mem_cons_of_mem _ ha)

end PoolSystem

/-- Only the job of the call under way is run. -/
theorem PhaseOk.running {sb : Submitter} (h : PhaseOk w p ws ran sb) {t : ℕ} (ht : 1 ≤ t ∧ t ≤ w)
    {j : DrainJob} {cur next : ℤ} (hrun : ws t = .drain e (.run j cur next)) :
    ∃ c, sb.call = some c ∧ j.fn = c.fn ∧ j.ctx = c.ctx ∧ 0 ≤ cur ∧ next ≤ c.nItems := by
  have hteam (sub : Option Drain) : crewOf sub ws t = some (.run j cur next) := by
    rw [crewOf, if_neg (by omega), hrun]
    rfl
  have hnot {sub : Option Drain} {pos : ℤ} (hcrew : Crew w p (crewOf sub ws) pos)
      (hnone : taken w (crewOf sub ws) = 0) : False := by
    have hz := hcrew.not_taken hnone (by omega) (hteam sub)
    have hlt := (hcrew.holds t _ (hteam sub)).2.2.1
    simp only [Drain.pending] at hz
    omega
  have hserves {c : PoolCall} {e' : Epoch} {sub : Option Drain} {pos : ℤ}
      (hs : Serves w p c e' sub ws ran pos) :
      j.fn = c.fn ∧ j.ctx = c.ctx ∧ 0 ≤ cur ∧ next ≤ c.nItems := by
    obtain ⟨rfl, h0, -, hle⟩ := hs.crew.holds t _ (hteam sub)
    exact ⟨hs.jobFn, hs.jobCtx, h0, hs.jobEnd ▸ hle⟩
  have hrests (hr : Rests w p ws) : False := hnot hr.crew hr.none
  have hwrites {e' : Epoch} (hw : Writes p ws e') : False := by
    have hout := hw.out t
    rw [hrun] at hout
    exact hout
  cases sb with
  | idle => exact (hrests h).elim
  | inJob c => exact (hrests (Called.rests h)).elim
  | inline c => exact (hrests (Called.rests h)).elim
  | epoch c => exact (hrests h.1.rests).elim
  | gate c e' => exact (hrests h.1.rests).elim
  | busy c e' => exact (hrests h.1.rests).elim
  | retire c e' => exact (hrests h.1.rests).elim
  | store c e' rest => exact (hwrites h.1).elim
  | publish c e' => exact (hwrites h.1).elim
  | wake c e' => exact ⟨c, rfl, hserves h.choose_spec⟩
  | drain c e' d => exact ⟨c, rfl, hserves h.2.choose_spec⟩
  | await c e' => exact ⟨c, rfl, hserves h.2.choose_spec⟩
  | close c e' => exact ⟨c, rfl, hserves (Drained.serves h)⟩
  | free c e' => exact ⟨c, rfl, hserves (Drained.serves h)⟩

/-- Every index of a call was run once when it returns, and nothing else was; a worker only runs
chunks of the call under way, none once it has returned. -/
theorem parallelFor_once (w : ℕ) (acts : List PoolAct)
    (hsmall : ∀ act ∈ acts, PoolSystem.Small w act) :
    let s := acts.foldl (PoolSystem.apply w) .init
    (∀ r ∈ s.returned, r.1.Done r.2) ∧
      ∀ t e j cur next, s.workers t = .drain e (.run j cur next) →
        ∃ c, s.submitter.call = some c ∧ j.fn = c.fn ∧ j.ctx = c.ctx ∧ 0 ≤ cur ∧
          next ≤ c.nItems := by
  intro s
  have hs : s.Ok w := (PoolSystem.Ok.init w).run acts hsmall
  refine ⟨hs.returned, fun t e j cur next hrun => ?_⟩
  have ht : 1 ≤ t ∧ t ≤ w := by
    by_contra hout
    rw [hs.outside t (by omega)] at hrun
    cases hrun
  exact hs.phase.running ht hrun

/-- One worker and a call over two items, with the worker in the job before it is done. -/
def lateWorker : List PoolAct :=
  .call ⟨2, 1, 7, 9⟩ :: (List.replicate 15 (.submit false) ++ List.replicate 6 (.work 1 false) ++
    List.replicate 18 (.submit false))

theorem parallelFor_once_late :
    let s := lateWorker.foldl (PoolSystem.apply 1) .init
    s.submitter = .idle ∧ s.returned.length = 1 ∧ ∀ r ∈ s.returned, r.1.Done r.2 :=
  ⟨by decide +kernel, by decide +kernel, (parallelFor_once 1 lateWorker (by decide +kernel)).1⟩

/-- The call has returned, and the worker that was late loads its `ctx`. And near `INT_MAX` the
end of a chunk overflows. -/
theorem parallelFor_readsLate :
    let s := lateWorker.foldl (PoolSystem.apply 1) .init
    let late := s.apply 1 (.work 1 false)
    let long : PoolCall := ⟨2147483647, 1, 7, 9⟩
    (s.submitter = .idle ∧ s.returned.map (·.1) = [⟨2, 1, 7, 9⟩] ∧
      late.workers 1 = .drain 1 (.jobCtx 7) ∧
      (late.apply 1 (.work 1 false)).workers 1 = .drain 1 (.jobEnd 7 9)) ∧
    (DrainJob.mk 7 9 long.nItems (long.chunkSize 2) 2).next 2147483000 < 0 := by
  decide +kernel

end Kappai
