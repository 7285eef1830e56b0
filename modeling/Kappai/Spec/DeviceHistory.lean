import Mathlib.Data.List.DropRight
import Kappai.Spec.Context

/-! The tokens that a device penalises for having come up before. It keeps them in a ring of its own,
which the context sets and the device appends its picks to; the sampler keeps the tokens it has observed.
The failures of the device are answers. -/

namespace Kappai

/-- `DEVICE_SAMPLE_HIST_CAP` -/
def deviceSampleHistCap : ℕ := 1024

/-- What the device and the parameters of a draw say about each other; `D` holds the temperature, `top_k`,
`top_p` and `min_p`. -/
structure DeviceDraws (D : Type*) where
  initial : D
  isGreedy : D → Bool
  /-- `backend_can_device_sample` of the parameters, and of a greedy draw. -/
  canSample : D → Bool
  canSampleGreedy : Bool
  argmax : Bool
  /-- A backend is set, `debug_forward` is not, and there is no recurrent state. -/
  onDevice : Bool
  /-- `context_token_regs_usable` for a draw and for `argmax`. -/
  tokenRegs : Bool → Bool

/-- `sampler_params`; `penalises` is `repeat_penalty != 1.0f`. -/
structure SamplerParams (D : Type*) where
  draw : D
  penalises : Bool
  repeatLastN : ℤ

/-- `sampler`; the ring of recent tokens is a list from `recent_head` on. -/
structure Sampler (D : Type*) where
  draw : D
  penalises : Bool
  repeatLastN : ℕ
  recentCapacity : ℕ
  recent : List Token
  observed : UInt64

variable {D : Type*} (B : DeviceDraws D)

namespace Sampler

variable (s : Sampler D)

/-- `sampler_init` -/
def init : Sampler D := ⟨B.initial, false, 0, 256, [], 0⟩

/-- `sampler_set_params` -/
def setParams (p : SamplerParams D) : Sampler D :=
  let s := { s with draw := p.draw, penalises := p.penalises }
  if 0 < p.repeatLastN then
    { s with
      repeatLastN := p.repeatLastN.toNat
      recentCapacity := max s.recentCapacity p.repeatLastN.toNat }
  else s

/-- `sampler_observe` -/
def observe (tok : Token) : Sampler D :=
  { s with
    observed := s.observed + 1
    recent := (if s.recentCapacity ≤ s.recent.length then s.recent.tail else s.recent) ++ [tok] }

/-- `sampler_device_eligible` -/
def deviceEligible : Bool :=
  if B.isGreedy s.draw && !s.penalises then false
  else if s.penalises && deviceSampleHistCap < s.repeatLastN then false
  else if B.isGreedy s.draw then B.canSampleGreedy
  else B.canSample s.draw

/-- No penalty, temperature 0 or `top_k` 1, and a device that has `argmax`. -/
def deviceGreedy : Bool := B.isGreedy s.draw && !s.penalises && B.argmax

/-- `sampler_recent_window` -/
def recentWindow (cap : ℕ) : List Token :=
  s.recent.rtake (min (min s.repeatLastN s.recent.length) cap)

end Sampler

/-- The context as far as the device's history goes. -/
structure HistContext (D : Type*) where
  samp : Sampler D
  /-- The ring of the device, from its oldest token on. -/
  hist : List Token
  histValid : Bool
  histObs : UInt64
  histAppends : UInt64
  presampled : Option Token
  /-- `device_sample` of the decode loop that runs. -/
  deviceSample : Bool
  /-- Not in the source: the tokens observed since the sampler forgot all. -/
  log : List Token
  /-- Not in the source: the history was set when no pick was waiting, and from then on every token that
  the sampler observed was the pick appended before it, and every pick was observed before the next. -/
  clean : Bool
  /-- Not in the source: at each draw with a penalty, the tokens penalised and those meant to be. -/
  penalised : List (List Token × List Token)

/-- The answers in one call of `context_sample_next`. -/
structure NextAnswers where
  onHost : Bool
  set : Bool
  pick : Option Token
  sample : Token

namespace HistContext

variable (c : HistContext D)

def init : HistContext D :=
  ⟨.init B, [], false, 0, 0, none, false, [], false, []⟩

def observe (tok : Token) : HistContext D :=
  { c with samp := c.samp.observe tok, log := c.log ++ [tok] }

/-- A token is observed that no pick was. -/
def observeForeign (tok : Token) : HistContext D := { c.observe tok with clean := false }

/-- The test of `context_sync_device_history` for a history that is up to date. -/
def upToDate : Bool := c.histValid && c.samp.observed - c.histObs == c.histAppends

/-- `context_sync_device_history`; `set` is whether `sample_history_set` goes through. -/
def syncDeviceHistory (set : Bool) : HistContext D :=
  if !c.samp.penalises || c.upToDate || !set then c
  else
    { c with
      hist := c.samp.recentWindow deviceSampleHistCap
      histValid := true
      histObs := c.samp.observed
      histAppends := 0
      clean := c.presampled.isNone }

/-- `context_device_pick` and `context_device_pick_reg`, with the pick if they go through: a draw
penalises the last tokens of the history, and the device appends the pick to it. -/
def devicePick (sample : Bool) (pick : Option Token) : HistContext D :=
  match pick with
  | none => c
  | some tok =>
    if sample then
      { c with
        hist := (c.hist ++ [tok]).rtake deviceSampleHistCap
        histAppends := c.histAppends + 1
        clean := c.clean && c.presampled.isNone
        penalised :=
          if c.samp.penalises then
            c.penalised ++ [(c.hist.rtake c.samp.repeatLastN,
              c.log.rtake c.samp.repeatLastN ++ c.presampled.toList)]
          else c.penalised }
    else { c with clean := false }

/-- `context_sample_next` -/
def sampleNext (a : NextAnswers) : HistContext D :=
  match c.presampled with
  | some tok => { c with presampled := none }.observe tok
  | none =>
    let sample := c.samp.deviceEligible B
    if !a.onHost && (c.samp.deviceGreedy B || sample) then
      let c := if sample then c.syncDeviceHistory a.set else c
      match a.pick with
      | some tok => (c.devicePick sample (some tok)).observe tok
      | none => c.observeForeign a.sample
    else c.observeForeign a.sample

/-- `context_sample_device_row`, and the pick left for `context_sample_next`. -/
def sampleDeviceRow (set : Bool) (pick : Option Token) : HistContext D :=
  if B.onDevice && (c.samp.deviceGreedy B || c.samp.deviceEligible B) then
    let sample := c.samp.deviceEligible B
    let c := if sample then c.syncDeviceHistory set else c
    match pick with
    | none => c
    | some tok => { c.devicePick sample (some tok) with presampled := some tok }
  else c

/-- What a decode loop does first. -/
def beginLoop (p : SamplerParams D) (set : Bool) : HistContext D :=
  let c := { c with samp := c.samp.setParams p }
  let c := { c with deviceSample := B.onDevice && c.samp.deviceEligible B }
  if c.deviceSample then c.syncDeviceHistory set else c

end HistContext

/-- One call that has to do with the history. In a decode loop `loopPick` is a pick to the host, and
`loopPickReg` one to a register, which is then read or not. -/
inductive HistEvent (D : Type*)
  | prefill (tokens : List Token)
  | beginLoop (p : SamplerParams D) (set : Bool)
  | loopPick (pick : Option Token)
  | loopPickReg (pick : Option Token) (read : Bool)
  | sampleNext (a : NextAnswers)
  | row (set : Bool) (pick : Option Token)
  | resetSession
  | reseed

namespace HistContext

variable (c : HistContext D)

/-- A pick of the decode loop; `delivered` is whether the host learns of it. -/
def loopPick (pick : Option Token) (delivered : Bool) : HistContext D :=
  match pick with
  | none => c
  | some tok =>
    let c := c.devicePick c.deviceSample (some tok)
    if delivered then c.observe tok else { c with clean := false }

def apply : HistEvent D → HistContext D
  | .prefill tokens => tokens.foldl observeForeign c
  | .beginLoop p set => c.beginLoop B p set
  | .loopPick pick => c.loopPick pick true
  | .loopPickReg pick read => c.loopPick pick read
  | .sampleNext a => c.sampleNext B a
  | .row set pick => c.sampleDeviceRow B set pick
  | .resetSession =>
    { c with samp := { c.samp with recent := [] }, histValid := false, log := [], clean := false }
  | .reseed => { c with samp := .init B, log := [], clean := false }

end HistContext

/-- The answers in one iteration of a decode loop. -/
structure LoopAnswers where
  pickReg : Option Token
  /-- `context_feed_reg` returns `ERR_UNSUPPORTED`. -/
  unsupported : Bool
  read : Bool
  pick : Option Token
  onHost : Bool
  redo : Bool
  next : NextAnswers
  /-- The server's decode step samples its row: `set` and the pick. -/
  row : Option (Bool × Option Token)

/-- `pipelined` and `device_pick` -/
structure LoopLocals where
  pipelined : Bool
  devicePick : Bool

/-- One iteration of `context_decode_loop`: the calls it makes, and how it goes on. -/
def loopEvents (l : LoopLocals) (a : LoopAnswers) : List (HistEvent D) × Option LoopLocals :=
  let fed (events : List (HistEvent D)) (l : LoopLocals) :=
    (events ++ (a.row.map fun r => HistEvent.row r.1 r.2).toList, some l)
  let hostRedo (event : HistEvent D) :=
    if a.redo then fed [event, .sampleNext a.next] ⟨false, false⟩ else ([event], none)
  if l.pipelined then
    match a.pickReg with
    | some tok =>
      if a.read then fed [.loopPickReg (some tok) true] { l with pipelined := !a.unsupported }
      else hostRedo (.loopPickReg (some tok) false)
    | none => hostRedo (.loopPickReg none false)
  else if l.devicePick && !a.onHost then
    match a.pick with
    | some tok => fed [.loopPick (some tok)] l
    | none => hostRedo (.loopPick none)
  else fed [.sampleNext a.next] l

/-- The iterations of `context_decode_loop`, which can leave after any of them. -/
def decodeEvents : LoopLocals → List LoopAnswers → List (HistEvent D)
  | _, [] => []
  | l, a :: answers =>
    let r := loopEvents l a
    r.1 ++ r.2.elim [] fun l => decodeEvents l answers

/-- A generation: the tokens its prefill feeds and whether that goes well, the parameters, whether the
history can be set, and the iterations. -/
structure HistGeneration (D : Type*) where
  fed : List Token
  prefilled : Bool
  params : SamplerParams D
  set : Bool
  iterations : List LoopAnswers

/-- `run_generation` in a context: the calls it makes. -/
def HistGeneration.events (g : HistGeneration D) (c : HistContext D) : List (HistEvent D) :=
  .prefill g.fed ::
    if g.prefilled then
      let s := c.samp.setParams g.params
      let deviceSample := B.onDevice && s.deviceEligible B
      let devicePick := deviceSample || (B.onDevice && s.deviceGreedy B)
      .beginLoop g.params g.set ::
        decodeEvents ⟨devicePick && B.tokenRegs deviceSample, devicePick⟩ g.iterations
    else []

/-- What is done with a context: generations, and the calls that are made outside of one. -/
inductive HistOp (D : Type*)
  | generation (g : HistGeneration D)
  | event (e : HistEvent D)

def HistOp.events (c : HistContext D) : HistOp D → List (HistEvent D)
  | .generation g => g.events B c
  | .event e => [e]

/-- The calls of a run. -/
def histEvents (c : HistContext D) : List (HistOp D) → List (HistEvent D)
  | [] => []
  | op :: ops =>
    op.events B c ++ histEvents ((op.events B c).foldl (HistContext.apply B) c) ops

end Kappai
