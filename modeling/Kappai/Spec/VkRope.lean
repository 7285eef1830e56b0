import Mathlib

/-! The rope tables on the device: `vk_ensure_rope_bufs`, `vk_rope_tables_get`, and the runs of their
calls. -/

namespace Kappai

namespace VkRope

/-- A buffer of floats on the device. -/
structure DevBuf (V : Type) where
  size : ℕ
  data : ℕ → V

inductive Status
  | ok | invalidArg | failed
  /-- a write to a buffer that is not there -/
  | crash
deriving DecidableEq

/-- How `vk_buffer_upload` ends. One that fails may leave anything in the buffer. -/
inductive Upload (V : Type)
  | done
  | failed (left : ℕ → V)

/-- What the device answers in a call: what is in each buffer that it allocates, if it does, and how the
writes end. -/
structure Answers (V : Type) where
  allocCos : Option (ℕ → V)
  allocSin : Option (ℕ → V)
  writeCos : Upload V
  writeSin : Upload V

/-- `rope_cos_buf` with what is kept about it, or `rope_cos_buf_alt` with its own. -/
structure Slot (A V : Type) where
  cosBuf : Option (DevBuf V)
  sinBuf : Option (DevBuf V)
  cap : ℤ
  halfStored : ℤ
  cosBase : Option A
  sinBase : Option A

/-- `rope_ff_buf` with what is kept about it. -/
structure FactorTable (A V T : Type) where
  buf : Option (DevBuf V)
  cap : ℤ
  base : Option A
  headDim : ℤ
  nCtx : ℤ
  theta : T

inductive Side
  | main | alt
deriving DecidableEq

/-- Of `vk_priv`, with the `rope_theta` of the backend. -/
structure Priv (A V T : Type) where
  nCtxStored : ℤ
  ropeTheta : T
  main : Slot A V
  alt : Slot A V
  active : Option Side
  ff : FactorTable A V T

variable {A V T : Type}

def Slot.empty : Slot A V := ⟨none, none, 0, 0, none, none⟩

def Priv.init (theta zero : T) : Priv A V T :=
  ⟨0, theta, Slot.empty, Slot.empty, none, ⟨none, 0, none, 0, 0, zero⟩⟩

def Priv.slot (p : Priv A V T) : Side → Slot A V
  | .main => p.main
  | .alt => p.alt

def Priv.setSlot (p : Priv A V T) (side : Side) (sl : Slot A V) : Priv A V T :=
  match side with
  | .main => { p with main := sl }
  | .alt => { p with alt := sl }

/-- The product of two `int`, as an `int`. -/
def intMul (x y : ℤ) : ℤ := (x * y).bmod (2 ^ 32)

/-- `vk_buffer_upload` of the first floats of a table. -/
def upload (b : Option (DevBuf V)) (n : ℕ) (table : ℕ → V) (u : Upload V) : Option (DevBuf V) × Status :=
  match b with
  | none => (none, .crash)
  | some d =>
    match u with
    | .done => (some { d with data := fun i => if i < n then table i else d.data i }, .ok)
    | .failed left => (some { d with data := left }, .failed)

section Ensure

variable [DecidableEq A]

def Slot.keyed (sl : Slot A V) (cosBase sinBase : A) : Bool :=
  decide (sl.cosBase = some cosBase ∧ sl.sinBase = some sinBase)

/-- The buffers that a call takes. -/
def selectSide (p : Priv A V T) (cosBase sinBase : A) : Side :=
  if p.main.keyed cosBase sinBase then .main
  else if p.alt.keyed cosBase sinBase then .alt
  else if p.main.cosBase.isNone then .main
  else if p.alt.cosBase.isNone then .alt
  else .main

/-- `need_upload` -/
def needUpload (sl : Slot A V) (need half : ℤ) (cosBase sinBase : A) : Bool :=
  decide (need > sl.cap) || decide (sl.halfStored ≠ half) || !sl.keyed cosBase sinBase

end Ensure

/-- Both buffers made again where they are too small. -/
def grow (sl : Slot A V) (need : ℤ) (ans : Answers V) : Slot A V × Status :=
  if need > sl.cap then
    let sl := { sl with cosBuf := none, sinBuf := none }
    match ans.allocCos with
    | none => (sl, .failed)
    | some c =>
      let sl := { sl with cosBuf := some ⟨need.toNat, c⟩ }
      match ans.allocSin with
      | none => (sl, .failed)
      | some s => ({ sl with sinBuf := some ⟨need.toNat, s⟩, cap := need }, .ok)
  else (sl, .ok)

section Ensure

variable [DecidableEq A] (mem : A → ℕ → V)

def fill (sl : Slot A V) (need half : ℤ) (cosBase sinBase : A) (ans : Answers V) : Slot A V × Status :=
  let g := grow sl need ans
  if g.2 ≠ .ok then g
  else
    let c := upload g.1.cosBuf need.toNat (mem cosBase) ans.writeCos
    let sl := { g.1 with cosBuf := c.1 }
    if c.2 ≠ .ok then (sl, c.2)
    else
      let s := upload sl.sinBuf need.toNat (mem sinBase) ans.writeSin
      let sl := { sl with sinBuf := s.1 }
      if s.2 ≠ .ok then (sl, s.2)
      else ({ sl with cosBase := some cosBase, sinBase := some sinBase, halfStored := half }, .ok)

/-- `vk_ensure_rope_bufs` -/
def ensureRopeBufs (p : Priv A V T) (half : ℤ) (cosBase sinBase : A) (ans : Answers V) :
    Priv A V T × Status :=
  if p.nCtxStored ≤ 0 ∨ half ≤ 0 then (p, .invalidArg)
  else
    let need := intMul p.nCtxStored half
    let side := selectSide p cosBase sinBase
    let r := if needUpload (p.slot side) need half cosBase sinBase then
        fill mem (p.slot side) need half cosBase sinBase ans
      else (p.slot side, .ok)
    let p := p.setSlot side r.1
    if r.2 ≠ .ok then (p, r.2) else ({ p with active := some side }, .ok)

end Ensure

/-- What the table of the factors is computed with. -/
structure Arith (V T D : Type) where
  ofFloat : V → D
  /-- `fv >= 1e10 || fv == 0.0` -/
  isOff : D → Bool
  isPos : D → Bool
  zero : D
  one : D
  mul : D → D → D
  ofNat : ℕ → D
  /-- `pow((double)rope_theta, -2.0 / (double)head_dim)` -/
  thetaScale : T → ℤ → D
  cos : D → V
  sin : D → V
  oneF : V
  zeroF : V

section Factors

variable {D : Type} (ar : Arith V T D)

/-- `base_freq` at `j` -/
def baseFreq (scale : D) (j : ℕ) : D := (fun b => ar.mul b scale)^[j] ar.one

/-- An entry of the two tables, for the cosine or the sine, with its value where the factor is off. -/
def factorEntry (trig : D → V) (off : V) (scale : D) (factors : ℕ → V) (pp j : ℕ) : V :=
  let fv := ar.ofFloat (factors j)
  let ff := if ar.isOff fv then ar.zero else fv
  if ar.isPos ff then trig (ar.mul (ar.mul (baseFreq ar scale j) ff) (ar.ofNat pp)) else off

/-- The table that is uploaded: the cosines by position, then the sines. -/
def factorTable (factors : ℕ → V) (headDim : ℤ) (theta : T) (nCtx : ℤ) (i : ℕ) : V :=
  let half := (headDim.tdiv 2).toNat
  let floats := nCtx.toNat * half
  let scale := ar.thetaScale theta headDim
  if i < floats then factorEntry ar ar.cos ar.oneF scale factors (i / half) (i % half)
  else factorEntry ar ar.sin ar.zeroF scale factors ((i - floats) / half) ((i - floats) % half)

/-- What the device answers in a call with factors. -/
structure FactorAnswers (V : Type) where
  alloc : Option (ℕ → V)
  write : Upload V

/-- The floats of the table, and its bytes. -/
def factorFloats (nCtx headDim : ℤ) : ℕ := nCtx.toNat * (headDim.tdiv 2).toNat * 2

def factorBytes (nCtx headDim : ℤ) : ℕ := factorFloats nCtx headDim * 4

/-- An `int` as a `size_t`. -/
def sizeOfInt (x : ℤ) : ℕ := (x % 2 ^ 64).toNat

variable [DecidableEq A] [DecidableEq T] (mem : A → ℕ → V)

/-- `table_stale` -/
def tableStale (p : Priv A V T) (headDim : ℤ) (factors : A) : Bool :=
  decide (factorBytes p.nCtxStored headDim > sizeOfInt p.ff.cap) || decide (p.ff.base ≠ some factors) ||
    decide (p.ff.headDim ≠ headDim) || decide (p.ff.nCtx ≠ p.nCtxStored) ||
    decide (p.ff.theta ≠ p.ropeTheta)

/-- The buffer made again where it is too small. -/
def growFactors (ff : FactorTable A V T) (bytes : ℕ) (ans : FactorAnswers V) : FactorTable A V T × Status :=
  if bytes > sizeOfInt ff.cap then
    let ff := { ff with buf := none }
    match ans.alloc with
    | none => (ff, .failed)
    | some d =>
      ({ ff with buf := some ⟨bytes / 4, d⟩, cap := (bytes : ℤ).bmod (2 ^ 32), base := none }, .ok)
  else (ff, .ok)

/-- The table computed and uploaded. -/
def buildFactors (p : Priv A V T) (headDim : ℤ) (factors : A) (ans : FactorAnswers V) :
    FactorTable A V T × Status :=
  let g := growFactors p.ff (factorBytes p.nCtxStored headDim) ans
  if g.2 ≠ .ok then g
  else
    let u := upload g.1.buf (factorFloats p.nCtxStored headDim)
      (factorTable ar (mem factors) headDim p.ropeTheta p.nCtxStored) ans.write
    let ff := { g.1 with buf := u.1 }
    if u.2 ≠ .ok then (ff, u.2)
    else ({ ff with base := some factors, headDim := headDim, nCtx := p.nCtxStored, theta := p.ropeTheta },
      .ok)

/-- `vk_rope_tables_get` with frequency factors. Without them it is `vk_ensure_rope_bufs` for half of the
head. -/
def factorTablesGet (p : Priv A V T) (headDim : ℤ) (factors : A) (ans : FactorAnswers V) :
    Priv A V T × Status :=
  if p.nCtxStored ≤ 0 ∨ headDim.tdiv 2 ≤ 0 then (p, .invalidArg)
  else if tableStale p headDim factors then
    let r := buildFactors ar mem p headDim factors ans
    ({ p with ff := r.1 }, r.2)
  else (p, .ok)

/-- What changes the state: an allocation of a K/V cache (or an MLA call that grows it), a new `rope_theta`,
and the calls for the tables. -/
inductive Op (A V T : Type)
  | setCtx (n : ℤ)
  | setTheta (theta : T)
  | ensure (half : ℤ) (cosBase sinBase : A) (ans : Answers V)
  | factors (headDim : ℤ) (factors : A) (ans : FactorAnswers V)

def step (p : Priv A V T) : Op A V T → Priv A V T × Status
  | .setCtx n => ({ p with nCtxStored := n }, .ok)
  | .setTheta theta => ({ p with ropeTheta := theta }, .ok)
  | .ensure half cosBase sinBase ans => ensureRopeBufs mem p half cosBase sinBase ans
  | .factors headDim f ans => factorTablesGet ar mem p headDim f ans

/-- A buffer is live and its first floats are those of a table. -/
def Holds (b : Option (DevBuf V)) (n : ℕ) (table : ℕ → V) : Prop :=
  ∃ d ∈ b, n ≤ d.size ∧ ∀ i < n, d.data i = table i

/-- What a call that returns `OK` promises of the buffers that it binds. -/
def Bound (p : Priv A V T) : Op A V T → Prop
  | .setCtx _ => True
  | .setTheta _ => True
  | .ensure half cosBase sinBase _ => ∃ side ∈ p.active,
      Holds (p.slot side).cosBuf (p.nCtxStored * half).toNat (mem cosBase) ∧
      Holds (p.slot side).sinBuf (p.nCtxStored * half).toNat (mem sinBase)
  | .factors headDim f _ => Holds p.ff.buf (factorFloats p.nCtxStored headDim)
      (factorTable ar (mem f) headDim p.ropeTheta p.nCtxStored)

/-- What the calls so far have done: how many floats of its tables each pair of buffers was given since they
were put there and no call failed on it, and whether the last call that built the table of the factors
succeeded. -/
structure Hist where
  main : ℕ
  alt : ℕ
  ff : Bool

def Hist.init : Hist := ⟨0, 0, false⟩

def Hist.given (h : Hist) : Side → ℕ
  | .main => h.main
  | .alt => h.alt

def Hist.setGiven (h : Hist) (side : Side) (n : ℕ) : Hist :=
  match side with
  | .main => { h with main := n }
  | .alt => { h with alt := n }

/-- What an upload makes of the floats that were given. -/
def givenAfter (sl : Slot A V) (need : ℤ) (cosBase sinBase : A) (st : Status) (given : ℕ) : ℕ :=
  if st ≠ .ok then 0
  else if need ≤ sl.cap ∧ sl.keyed cosBase sinBase = true then max given need.toNat
  else need.toNat

def Hist.step (h : Hist) (p : Priv A V T) (op : Op A V T) (st : Status) : Hist :=
  match op with
  | .setCtx _ => h
  | .setTheta _ => h
  | .ensure half cosBase sinBase _ =>
    let side := selectSide p cosBase sinBase
    let need := intMul p.nCtxStored half
    if p.nCtxStored ≤ 0 ∨ half ≤ 0 then h
    else if needUpload (p.slot side) need half cosBase sinBase then
      h.setGiven side (givenAfter (p.slot side) need cosBase sinBase st (h.given side))
    else h
  | .factors headDim f _ =>
    if p.nCtxStored ≤ 0 ∨ headDim.tdiv 2 ≤ 0 then h
    else if tableStale p headDim f then { h with ff := decide (st = .ok) } else h

/-- Sizes fit in an `int`, and a call that finds its tables in place needs no more floats of them than were
given, or finds the table of the factors as it was built. -/
def Sound (p : Priv A V T) (h : Hist) : Op A V T → Prop
  | .setCtx _ => True
  | .setTheta _ => True
  | .ensure half cosBase sinBase _ => 0 < p.nCtxStored → 0 < half →
      p.nCtxStored * half < 2 ^ 31 ∧
      (needUpload (p.slot (selectSide p cosBase sinBase)) (p.nCtxStored * half) half cosBase sinBase = false →
        p.nCtxStored * half ≤ h.given (selectSide p cosBase sinBase))
  | .factors headDim f _ => 0 < p.nCtxStored → 0 < headDim.tdiv 2 →
      factorBytes p.nCtxStored headDim < 2 ^ 31 ∧ (tableStale p headDim f = false → h.ff = true)

/-- Every call of a run that returns `OK` binds the right tables. -/
def BoundRun : Priv A V T → List (Op A V T) → Prop
  | _, [] => True
  | p, op :: ops =>
    ((step ar mem p op).2 = .ok → Bound ar mem (step ar mem p op).1 op) ∧ BoundRun (step ar mem p op).1 ops

/-- Every call of a run is sound. -/
def SoundRun : Priv A V T → Hist → List (Op A V T) → Prop
  | _, _, [] => True
  | p, h, op :: ops =>
    Sound p h op ∧ SoundRun (step ar mem p op).1 (h.step p op (step ar mem p op).2) ops

end Factors

end VkRope

end Kappai
