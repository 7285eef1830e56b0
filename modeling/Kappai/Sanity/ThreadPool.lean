import Kappai.Lib.Buckets
import Kappai.Spec.ThreadPool
import Mathlib.Algebra.Order.Ring.Int
import Mathlib.Tactic.Common

/-! What one step of a thread does to the job: the threads that drain it hold the words of its
block, and the chunks they have taken make up what the cursor has passed. -/

namespace Kappai

theorem ofInt_getLsbD_high {pos : ℤ} (h0 : 0 ≤ pos) (h : pos < 2 ^ 31) {i : ℕ} (hi : 31 ≤ i) :
    (BitVec.ofInt 64 pos).getLsbD i = false := by
  obtain ⟨n, rfl⟩ := Int.eq_ofNat_of_zero_le h0
  rw [BitVec.ofInt_natCast, BitVec.getLsbD_ofNat]
  have hn : n < 2 ^ i := Nat.lt_of_lt_of_le (by omega) (Nat.pow_le_pow_right (by decide) hi)
  rw [Nat.testBit_lt_two_pow hn, Bool.and_false]

theorem cursorEpoch_pack (e : Epoch) {pos : ℤ} (h0 : 0 ≤ pos) (h : pos < 2 ^ 31) :
    cursorEpoch (packCursor e pos) = e := by
  apply BitVec.eq_of_getLsbD_eq
  intro i hi
  have h64 : 32 + i < 64 := by omega
  have hsub : 32 + i - 32 = i := by omega
  simp only [cursorEpoch, packCursor, BitVec.getLsbD_setWidth, BitVec.getLsbD_sshiftRight,
    BitVec.getLsbD_or, BitVec.getLsbD_shiftLeft, BitVec.getLsbD_signExtend,
    ofInt_getLsbD_high h0 h (show 31 ≤ 32 + i by omega), hsub, hi, h64, decide_true]
  simp [show ¬64 ≤ i by omega, show ¬32 + i < 32 by omega, show i < 64 by omega]

theorem cursorPos_pack (e : Epoch) {pos : ℤ} (h0 : 0 ≤ pos) (h : pos < 2 ^ 31) :
    cursorPos (packCursor e pos) = pos := by
  have hlow : (packCursor e pos &&& 0xffffffff#64).setWidth 32 = BitVec.ofInt 32 pos := by
    apply BitVec.eq_of_getLsbD_eq
    intro i hi
    have h64 : i < 64 := by omega
    simp only [packCursor, BitVec.getLsbD_setWidth, BitVec.getLsbD_and, BitVec.getLsbD_or,
      BitVec.getLsbD_shiftLeft, hi, h64, decide_true, Bool.true_and, Bool.not_true, Bool.false_and,
      Bool.false_or]
    have hmask : (0xffffffff#64).getLsbD i = true := by
      rw [BitVec.getLsbD_ofNat, show 0xffffffff = 2 ^ 32 - 1 from rfl,
        Nat.testBit_two_pow_sub_one]
      simp [hi, h64]
    obtain ⟨n, rfl⟩ := Int.eq_ofNat_of_zero_le h0
    rw [hmask, Bool.and_true, BitVec.ofInt_natCast, BitVec.ofInt_natCast, BitVec.getLsbD_ofNat,
      BitVec.getLsbD_ofNat]
    simp [hi, h64]
  rw [cursorPos, hlow, BitVec.toInt_ofInt]
  exact Int.bmod_eq_of_le (by omega) (by omega)
/-- As long as no sum exceeds an `int`, a chunk is not empty and ends in the range. -/
theorem DrainJob.next_spec {j : DrainJob} {cur : ℤ} (h0 : 0 ≤ cur) (hlt : cur < j.last)
    (hmin : 1 ≤ j.minChunk) (hsmall : j.last + j.minChunk < 2 ^ 31) (hact : 1 ≤ j.nActive) :
    cur < j.next cur ∧ j.next cur ≤ j.last := by
  have hpart : 0 ≤ (j.last - cur).tdiv (tpoolGuidedDivisor * j.nActive) ∧
      (j.last - cur).tdiv (tpoolGuidedDivisor * j.nActive) ≤ j.last - cur := by
    have hdiv : (1 : ℤ) ≤ tpoolGuidedDivisor * j.nActive := by
      rw [tpoolGuidedDivisor]
      omega
    rw [Int.tdiv_eq_ediv_of_nonneg (by omega)]
    exact ⟨Int.ediv_nonneg (by omega) (by omega), Int.ediv_le_self _ (by omega)⟩
  unfold next
  dsimp only
  generalize (j.last - cur).tdiv (tpoolGuidedDivisor * j.nActive) = part at hpart
  have hwrap : ∀ chunk, 1 ≤ chunk → cur + chunk < 2 ^ 31 →
      (BitVec.ofInt 32 (cur + chunk)).toInt = cur + chunk := by
    intro chunk h1 h2
    rw [BitVec.toInt_ofInt]
    exact Int.bmod_eq_of_le (by omega) (by omega)
  split_ifs with hfew hend hend <;> rw [hwrap _ (by omega) (by omega)] at * <;> omega

namespace Drain

/-- The chunk a thread has taken and not counted yet. -/
def pending : Drain → ℤ
  | run _ cur next | count _ cur next => next - cur
  | _ => 0

/-- Index `i` is in a chunk that is being run. -/
def covers (i : ℤ) : Drain → ℕ
  | run _ cur next => if cur ≤ i ∧ i < next then 1 else 0
  | _ => 0

end Drain

/-- What `tpool_drain_work` has loaded when it starts to look for chunks. -/
def Pool.drainJob (p : Pool) : DrainJob :=
  ⟨p.jobFn, p.jobCtx, p.jobEnd, p.chunkSize, p.nWorkers + 1⟩

/-- What a thread has loaded is what the pool has. -/
def Drain.Holds (p : Pool) : Drain → Prop
  | jobEpoch | jobFn => True
  | jobCtx fn => fn = p.jobFn
  | jobEnd fn ctx => fn = p.jobFn ∧ ctx = p.jobCtx
  | chunkSize fn ctx last => fn = p.jobFn ∧ ctx = p.jobCtx ∧ last = p.jobEnd
  | nWorkers fn ctx last minChunk =>
    fn = p.jobFn ∧ ctx = p.jobCtx ∧ last = p.jobEnd ∧ minChunk = p.chunkSize
  | scan j => j = p.drainJob
  | claim j snap cur next =>
    j = p.drainJob ∧ cur = cursorPos snap ∧ cur < next ∧ next ≤ p.jobEnd
  | run j cur next | count j cur next =>
    j = p.drainJob ∧ 0 ≤ cur ∧ cur < next ∧ next ≤ p.jobEnd

/-- The words that are not written while threads drain the job. -/
structure SameJob (p p' : Pool) : Prop where
  jobFn : p'.jobFn = p.jobFn
  jobCtx : p'.jobCtx = p.jobCtx
  jobEnd : p'.jobEnd = p.jobEnd
  chunkSize : p'.chunkSize = p.chunkSize
  nWorkers : p'.nWorkers = p.nWorkers
  jobEpoch : p'.jobEpoch = p.jobEpoch

theorem SameJob.refl (p : Pool) : SameJob p p := ⟨rfl, rfl, rfl, rfl, rfl, rfl⟩

theorem Drain.Holds.same {p p' : Pool} {d : Drain} (h : d.Holds p) (hs : SameJob p p') :
    d.Holds p' := by
  have hjob : p'.drainJob = p.drainJob := by
    simp only [Pool.drainJob, hs.jobFn, hs.jobCtx, hs.jobEnd, hs.chunkSize, hs.nWorkers]
  unfold Holds at h ⊢
  rw [hs.jobFn, hs.jobCtx, hs.jobEnd, hs.chunkSize, hjob]
  exact h

/-- The cursor stands at `pos`, and no sum of the chunks exceeds an `int`. -/
structure CursorAt (p : Pool) (pos : ℤ) : Prop where
  cursor : p.cursorEp = packCursor p.jobEpoch pos
  nonneg : 0 ≤ pos
  le : pos ≤ p.jobEnd
  small : p.jobEnd + p.chunkSize < 2 ^ 31
  chunk : 1 ≤ p.chunkSize
  workers : 0 ≤ p.nWorkers

def PoolChunk.covers (i : ℤ) (c : PoolChunk) : Bool := c.first ≤ i ∧ i < c.last

/-- A chunk of the job that the pool has. -/
structure PoolChunk.Of (p : Pool) (c : PoolChunk) : Prop where
  fn : c.fn = p.jobFn
  ctx : c.ctx = p.jobCtx
  first : 0 ≤ c.first
  last : c.last ≤ p.jobEnd

/-- A step of a thread that drains the job moves the cursor from `pos` to `pos'`. -/
structure DrainStep (p : Pool) (d : Drain) (pos : ℤ) (out : Pool × Option Drain × List PoolChunk)
    (pos' : ℤ) : Prop where
  same : SameJob p out.1
  at_ : CursorAt out.1 pos'
  le : pos ≤ pos'
  holds : ∀ d' ∈ out.2.1, d'.Holds out.1
  executed : out.1.executed + (out.2.1.elim 0 Drain.pending) + pos =
    p.executed + d.pending + pos'
  rises : p.executed ≤ out.1.executed
  covers : ∀ i, 0 ≤ i → out.2.2.countP (PoolChunk.covers i) + out.2.1.elim 0 (Drain.covers i) +
    (if i < pos then 1 else 0) = d.covers i + if i < pos' then 1 else 0
  chunks : ∀ c ∈ out.2.2, c.Of p
  quiet : d.pending = 0 → out.2.2 = []

/-- A load moves nothing. -/
theorem DrainStep.load {p : Pool} {d : Drain} {pos : ℤ} {od : Option Drain} (hp : CursorAt p pos)
    (hd : d.pending = 0) (hcov : ∀ i, d.covers i = 0) (hod : ∀ d' ∈ od, d'.Holds p)
    (hpend : od.elim 0 Drain.pending = 0) (hocov : ∀ i, od.elim 0 (Drain.covers i) = 0) :
    DrainStep p d pos (p, od, []) pos where
  same := .refl p
  at_ := hp
  le := le_rfl
  holds := hod
  executed := by rw [hpend, hd]
  rises := le_rfl
  covers i _ := by rw [hocov, hcov, List.countP_nil]
  chunks _ hc := absurd hc List.not_mem_nil
  quiet _ := rfl

theorem Drain.Holds.drainStep {p : Pool} {d : Drain} {pos : ℤ} (h : d.Holds p) (hp : CursorAt p pos)
    (tid : ℕ) (weak : Bool) : ∃ pos', DrainStep p d pos (d.step p p.jobEpoch tid weak) pos' := by
  cases d with
  | jobEpoch =>
    refine ⟨pos, .load hp rfl (fun _ => rfl) ?_ ?_ ?_⟩ <;> simp [Holds, pending, covers]
  | jobFn =>
    refine ⟨pos, .load hp rfl (fun _ => rfl) ?_ ?_ ?_⟩ <;>
      by_cases hf : p.jobFn = 0 <;> simp [hf, Holds, pending, covers]
  | jobCtx fn =>
    refine ⟨pos, .load hp rfl (fun _ => rfl) ?_ rfl fun _ => rfl⟩
    rintro d' ⟨⟩
    exact ⟨h, rfl⟩
  | jobEnd fn ctx =>
    refine ⟨pos, .load hp rfl (fun _ => rfl) ?_ rfl fun _ => rfl⟩
    rintro d' ⟨⟩
    exact ⟨h.1, h.2, rfl⟩
  | chunkSize fn ctx last =>
    refine ⟨pos, .load hp rfl (fun _ => rfl) ?_ rfl fun _ => rfl⟩
    rintro d' ⟨⟩
    exact ⟨h.1, h.2.1, h.2.2, rfl⟩
  | nWorkers fn ctx last minChunk =>
    refine ⟨pos, .load hp rfl (fun _ => rfl) ?_ rfl fun _ => rfl⟩
    rintro d' ⟨⟩
    obtain ⟨rfl, rfl, rfl, rfl⟩ := h
    rfl
  | scan j =>
    obtain rfl : j = p.drainJob := h
    have hsmall : pos < 2 ^ 31 := by
      have := hp.small
      have := hp.le
      have := hp.chunk
      omega
    have hcur : cursorPos p.cursorEp = pos := by rw [hp.cursor, cursorPos_pack _ hp.nonneg hsmall]
    refine ⟨pos, .load hp rfl (fun _ => rfl) ?_ ?_ ?_⟩
    · intro d' hd'
      split_ifs at hd' with hend
      · cases hd'
      · obtain rfl := Option.mem_some_iff.1 hd'
        rw [not_or, not_le, hcur] at hend
        have hnext := DrainJob.next_spec (j := p.drainJob) hp.nonneg hend.2 hp.chunk hp.small
          (by have := hp.workers; simp only [Pool.drainJob]; omega)
        rw [hcur]
        exact ⟨rfl, hcur.symm, hnext⟩
    · split_ifs <;> rfl
    · intro i
      split_ifs <;> rfl
  | claim j snap cur next =>
    obtain ⟨hj, hcur, hlt, hle⟩ := h
    by_cases hswap : p.cursorEp = snap ∧ weak = false
    · have hpos : cur = pos := by
        have hsmall : pos < 2 ^ 31 := by
          have := hp.small
          have := hp.le
          have := hp.chunk
          omega
        rw [hcur, ← hswap.1, hp.cursor, cursorPos_pack _ hp.nonneg hsmall]
      have hnn := hp.nonneg
      have hstep : (claim j snap cur next).step p p.jobEpoch tid weak =
          ({ p with cursorEp := packCursor p.jobEpoch next }, some (.run j cur next), []) :=
        if_pos hswap
      rw [hstep]
      refine ⟨next, ⟨⟨rfl, rfl, rfl, rfl, rfl, rfl⟩,
        ⟨rfl, by omega, hle, hp.small, hp.chunk, hp.workers⟩, by omega, ?_, ?_, le_rfl, ?_, ?_,
        fun _ => rfl⟩⟩
      · rintro d' ⟨⟩
        exact ⟨hj, by omega, hlt, hle⟩
      · simp only [Option.elim_some, pending]
        omega
      · intro i hi
        simp only [Option.elim_some, covers, List.countP_nil]
        split_ifs <;> omega
      · intro c hc
        cases hc
    · have hstep : (claim j snap cur next).step p p.jobEpoch tid weak = (p, some (.scan j), []) :=
        if_neg hswap
      rw [hstep]
      refine ⟨pos, .load hp rfl (fun _ => rfl) ?_ rfl fun _ => rfl⟩
      rintro d' ⟨⟩
      exact hj
  | run j cur next =>
    obtain ⟨hj, hcur, hlt, hle⟩ := h
    have hstep : (run j cur next).step p p.jobEpoch tid weak =
        (p, some (.count j cur next), [⟨j.fn, j.ctx, cur, next, tid⟩]) := by
      rw [Drain.step, if_neg (by omega)]
    rw [hstep]
    refine ⟨pos, ⟨.refl p, hp, le_rfl, ?_, rfl, le_rfl, ?_, ?_, ?_⟩⟩
    · rintro d' ⟨⟩
      exact ⟨hj, hcur, hlt, hle⟩
    · intro i _
      simp only [Option.elim_some, covers, List.countP_singleton, PoolChunk.covers,
        decide_eq_true_eq]
      omega
    · intro c hc
      rw [List.mem_singleton.1 hc, hj]
      exact ⟨rfl, rfl, hcur, hle⟩
    · intro hnone
      simp only [pending] at hnone
      omega
  | count j cur next =>
    obtain ⟨hj, hcur, hlt, hle⟩ := h
    refine ⟨pos, ⟨⟨rfl, rfl, rfl, rfl, rfl, rfl⟩,
      ⟨hp.cursor, hp.nonneg, hp.le, hp.small, hp.chunk, hp.workers⟩, le_rfl, ?_, ?_, ?_, ?_, ?_,
      fun _ => rfl⟩⟩
    · rintro d' ⟨⟩
      exact hj
    · simp only [Drain.step, Option.elim_some, pending]
      omega
    · simp only [Drain.step]
      omega
    · intro i _
      simp only [Drain.step, Option.elim_some, covers, List.countP_nil]
    · intro c hc
      cases hc

/-! ### The threads together -/

theorem Drain.Holds.pending_nonneg {p : Pool} {d : Drain} (h : d.Holds p) : 0 ≤ d.pending := by
  cases d with
  | run j cur next =>
    have := h.2.2.1
    simp only [Drain.pending]
    omega
  | count j cur next =>
    have := h.2.2.1
    simp only [Drain.pending]
    omega
  | _ => exact le_rfl

/-- What the threads `0` to `w` have taken and not counted. -/
def taken (w : ℕ) (team : ℕ → Option Drain) : ℤ :=
  tally (w + 1) (fun od => od.elim 0 Drain.pending) team

/-- How many of them run index `i`. -/
def running (w : ℕ) (team : ℕ → Option Drain) (i : ℤ) : ℕ :=
  tally (w + 1) (fun od => od.elim 0 (Drain.covers i)) team

/-- The threads that drain the job hold its words, and what is counted or taken is what the cursor
has passed. -/
structure Crew (w : ℕ) (p : Pool) (team : ℕ → Option Drain) (pos : ℤ) : Prop where
  at_ : CursorAt p pos
  holds : ∀ t, ∀ d ∈ team t, d.Holds p
  executed : p.executed + taken w team = pos

/-- Every index the cursor has passed was run once or is being run. -/
def Covered (w : ℕ) (ran : List PoolChunk) (team : ℕ → Option Drain) (pos : ℤ) : Prop :=
  ∀ i, 0 ≤ i → ran.countP (PoolChunk.covers i) + running w team i = if i < pos then 1 else 0

/-- A step of one thread of the crew, which runs the chunks `cs`. -/
structure CrewStep (w : ℕ) (p p' : Pool) (team team' : ℕ → Option Drain) (pos pos' : ℤ)
    (cs : List PoolChunk) : Prop where
  same : SameJob p p'
  crew : Crew w p' team' pos'
  le : pos ≤ pos'
  chunks : ∀ c ∈ cs, c.Of p
  covered : ∀ ran, Covered w ran team pos → Covered w (ran ++ cs) team' pos'
  spent : pos = p.jobEnd → taken w team = 0 → cs = [] ∧ taken w team' = 0

variable {w : ℕ} {p p' : Pool} {team : ℕ → Option Drain} {pos : ℤ}

theorem Crew.taken_nonneg (h : Crew w p team pos) : 0 ≤ taken w team := by
  refine tally_nonneg fun t _ => ?_
  cases hd : team t with
  | none => exact le_rfl
  | some d => exact (h.holds t d hd).pending_nonneg

/-- With nothing taken no chunk is being run. -/
theorem Crew.not_taken (h : Crew w p team pos) (hnone : taken w team = 0) {t : ℕ} (ht : t < w + 1)
    {d : Drain} (hd : team t = some d) : d.pending = 0 := by
  have hzero := tally_eq_zero (fun t _ => by
    cases hd : team t with
    | none => exact le_rfl
    | some d => exact (h.holds t d hd).pending_nonneg) hnone ht
  simpa only [hd, Option.elim_some] using hzero

theorem Crew.running_eq_zero (h : Crew w p team pos) (hnone : taken w team = 0) (i : ℤ) :
    running w team i = 0 := by
  refine tally_zero fun t ht => ?_
  cases hd : team t with
  | none => rfl
  | some d =>
    have hz := h.not_taken hnone ht hd
    have hh := h.holds t d hd
    cases d with
    | run j cur next =>
      have := hh.2.2.1
      simp only [Drain.pending] at hz
      omega
    | _ => rfl

theorem Crew.drain (h : Crew w p team pos) {t : ℕ} (ht : t < w + 1) {d : Drain}
    (hd : team t = some d) (tid : ℕ) (weak : Bool) :
    ∃ pos', CrewStep w p (d.step p p.jobEpoch tid weak).1 team
      (Function.update team t (d.step p p.jobEpoch tid weak).2.1) pos pos'
      (d.step p p.jobEpoch tid weak).2.2 := by
  obtain ⟨pos', hs⟩ := (h.holds t d hd).drainStep h.at_ tid weak
  generalize d.step p p.jobEpoch tid weak = out at hs ⊢
  have hsum := tally_update (fun od => od.elim 0 Drain.pending) team ht out.2.1
  simp only [hd, Option.elim_some] at hsum
  have hexec := hs.executed
  have htaken := h.executed
  have hcrew : Crew w out.1 (Function.update team t out.2.1) pos' := by
    refine ⟨hs.at_, fun u d' hd' => ?_, ?_⟩
    · by_cases hu : u = t
      · rw [hu, Function.update_self] at hd'
        exact hs.holds d' hd'
      · rw [Function.update_of_ne hu] at hd'
        exact (h.holds u d' hd').same hs.same
    · change out.1.executed + tally _ _ _ = pos'
      change p.executed + tally _ _ _ = pos at htaken
      omega
  refine ⟨pos', ⟨hs.same, hcrew, hs.le, hs.chunks, fun ran hran i hi => ?_, fun hend hnone => ?_⟩⟩
  · have hrun := tally_update (fun od => od.elim 0 (Drain.covers i)) team ht out.2.1
    simp only [hd, Option.elim_some] at hrun
    have hold := hran i hi
    have hnew := hs.covers i hi
    rw [List.countP_append]
    change _ + tally _ _ _ = _ at hold
    change _ + tally _ _ _ = _
    omega
  · have hzero := h.not_taken hnone ht hd
    have hnn := hcrew.taken_nonneg
    have hend' := hcrew.executed
    have hrises := hs.rises
    have hle := hs.at_.le
    rw [hs.same.jobEnd] at hle
    exact ⟨hs.quiet hzero, by omega⟩

/-- A step that has nothing to do with the job. -/
theorem Crew.idle (h : Crew w p team pos) (hs : SameJob p p') (hcur : p'.cursorEp = p.cursorEp)
    (hexec : p'.executed = p.executed) : CrewStep w p p' team team pos pos [] where
  same := hs
  crew := ⟨⟨by rw [hcur, hs.jobEpoch, h.at_.cursor], h.at_.nonneg, by rw [hs.jobEnd]; exact h.at_.le,
      by rw [hs.jobEnd, hs.chunkSize]; exact h.at_.small, by rw [hs.chunkSize]; exact h.at_.chunk,
      by rw [hs.nWorkers]; exact h.at_.workers⟩,
    fun t d hd => (h.holds t d hd).same hs, by rw [hexec]; exact h.executed⟩
  le := le_rfl
  chunks _ hc := absurd hc List.not_mem_nil
  covered ran hran := by rwa [List.append_nil]
  spent _ hnone := ⟨rfl, hnone⟩

/-- A thread starts to drain the job. -/
theorem Crew.join (h : Crew w p team pos) {t : ℕ} (ht : t < w + 1) (hnone : team t = none) :
    CrewStep w p p team (Function.update team t (some .jobEpoch)) pos pos [] := by
  have htaken : taken w (Function.update team t (some .jobEpoch)) = taken w team := by
    have := tally_update (fun od => od.elim 0 Drain.pending) team ht (some .jobEpoch)
    simp only [hnone, Option.elim_none, Option.elim_some, Drain.pending, add_zero] at this
    exact this
  refine ⟨.refl p, ⟨h.at_, fun u d hd => ?_, by rw [htaken]; exact h.executed⟩, le_rfl,
    fun _ hc => absurd hc List.not_mem_nil, fun ran hran i hi => ?_, fun _ hz => ⟨rfl, by rwa [htaken]⟩⟩
  · by_cases hu : u = t
    · rw [hu, Function.update_self] at hd
      obtain rfl := Option.mem_some_iff.1 hd
      exact trivial
    · rw [Function.update_of_ne hu] at hd
      exact h.holds u d hd
  · have := tally_update (fun od => od.elim 0 (Drain.covers i)) team ht (some .jobEpoch)
    simp only [hnone, Option.elim_none, Option.elim_some, Drain.covers, add_zero] at this
    rw [List.append_nil, ← hran i hi]
    exact congrArg _ this

end Kappai
