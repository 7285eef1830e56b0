import Mathlib.Algebra.Field.Rat
import Mathlib.Algebra.Order.Ring.Rat
import Mathlib.Algebra.Field.Defs
import Mathlib.Logic.Function.Iterate
import Mathlib.Order.Defs.LinearOrder
import Mathlib.Data.Int.Notation
import Mathlib.Tactic.Common
import Kappai.Lib.Loop
import Kappai.Spec.MoeStream

/-! The scores by which the device tier of an expert cache chooses its experts, in exact numbers. -/

namespace Kappai

variable {F : Type*} [Field F] [LinearOrder F]

structure MoeTierPolicy (F : Type*) where
  promoteThr : F
  demoteThr : F
  evictThr : F
  decay : F
  minResidency : ℤ
  swapMargin : F

structure MoeTierScore (F : Type*) where
  score : F
  lastHit : ℕ

structure MoeTierState (F : Type*) where
  score : MoeTierScore F
  lastMove : ℕ

inductive MoeTierAction
  | stay
  | promote
  | demote
  | evict
deriving DecidableEq, Repr

namespace MoeTierPolicy

/-- `moe_tier_policy_default` -/
def default : MoeTierPolicy F := ⟨30 / 100, 15 / 100, 3 / 100, 98 / 100, 32, 125 / 100⟩

variable (p : MoeTierPolicy F)

/-- `moe_tier_policy_valid` -/
def valid : Bool :=
  if ¬(p.decay > 0 ∧ p.decay < 1) then false
  else if ¬(p.evictThr > 0 ∧ p.demoteThr > p.evictThr ∧ p.promoteThr > p.demoteThr) then false
  else p.minResidency ≥ 0 ∧ p.swapMargin ≥ 1

/-- `moe_tier_score_at` -/
def scoreAt (s : MoeTierScore F) (token : ℕ) : F :=
  if token ≤ s.lastHit then s.score else s.score * p.decay ^ (token - s.lastHit)

/-- `moe_tier_score_hit` -/
def scoreHit (s : MoeTierScore F) (token : ℕ) : MoeTierScore F :=
  ⟨min 1 (p.scoreAt s token + (1 - p.decay)), token⟩

/-- `moe_tier_decide` -/
def decide (score : F) (tier topTier : ℕ) : MoeTierAction :=
  if tier < topTier ∧ score ≥ p.promoteThr then .promote
  else if tier > 0 ∧ score < p.demoteThr then .demote
  else if tier = 0 ∧ score < p.evictThr then .evict
  else .stay

/-- `moe_tier_may_move` -/
def mayMove (lastMove token : ℕ) : Bool :=
  if lastMove = 0 then true
  else token ≥ lastMove ∧ ((token - lastMove : ℕ) : ℤ) ≥ p.minResidency

/-- `moe_tier_beats` -/
def beats (challenger incumbent : F) : Bool := challenger > incumbent * p.swapMargin

end MoeTierPolicy

/-- The clock of a layer and what its tier keeps for each expert. -/
structure MoeTierLayer (F : Type*) where
  step : ℕ
  tstate : ℕ → MoeTierState F

namespace MoeTierLayer

/-- As the cache comes up. -/
def start : MoeTierLayer F := ⟨0, fun _ => ⟨⟨0, 0⟩, 0⟩⟩

def setState (T : MoeTierLayer F) (e : ℕ) (s : MoeTierState F) : MoeTierLayer F :=
  { T with tstate := Function.update T.tstate e s }

/-- The body of the loop of `tier_score_requests`. -/
def scoreRequest (p : MoeTierPolicy F) (nExperts : ℕ) (T : MoeTierLayer F) (eid : ℤ) :
    MoeTierLayer F :=
  if eid ≥ 0 ∧ eid < nExperts then
    let s := T.tstate eid.toNat
    T.setState eid.toNat { s with score := p.scoreHit s.score T.step }
  else T

/-- `tier_score_requests` -/
def scoreRequests (p : MoeTierPolicy F) (nExperts : ℕ) (T : MoeTierLayer F) (ids : List ℤ) :
    MoeTierLayer F :=
  ids.foldl (scoreRequest p nExperts) { T with step := T.step + 1 }

end MoeTierLayer

/-- A step of the recurrence that the score stands for, with the number of requests for the expert.
Where it is requested more than once the score is clamped each time. -/
def MoeTierPolicy.eagerStep (p : MoeTierPolicy F) (s : F) : ℕ → F
  | 0 => p.decay * s
  | 1 => p.decay * s + (1 - p.decay)
  | n + 2 => (fun s => min 1 (s + (1 - p.decay)))^[n + 2] (p.decay * s)

/-- The score after steps with these numbers of requests. -/
def MoeTierPolicy.eager (p : MoeTierPolicy F) (requests : List ℕ) : F :=
  requests.foldl p.eagerStep 0

/-! The maintenance of the device tier: a sweep moves the experts of a layer between the tier and
the LRU slots as their scores say. Beside the state a log says what each sweep has moved, and when
something last happened to an expert. -/

variable {F : Type*} [Field F] [LinearOrder F]

/-- An expert that a sweep took out of its slot: how often the slot was in use, when the expert
was last loaded or moved or failed to, and, of a swap, the scores of the challenger and the
incumbent. -/
structure TierMove (F : Type*) where
  eid : ℕ
  step : ℕ
  inuse : ℕ
  noted : Option ℕ
  swap : Option (F × F)
deriving DecidableEq

/-- A layer of a cache with a tier. `noted` and `moves` are not in the code. -/
structure MoeTieredLayer (F : Type*) where
  stream : MoeStream
  tier : MoeTierLayer F
  lastSweep : ℕ
  noted : ℕ → Option ℕ
  moves : List (TierMove F)

/-- Which transfers of a sweep succeed: the copy of the expert in a tier slot, the upload of the
one in an LRU slot, and the copy of the one it takes the place of. -/
structure SweepIo where
  demoted : ℕ → Bool
  uploaded : ℕ → Bool
  refilled : ℕ → Bool

def tierSweepInterval : ℕ := 8

def tierMovesPerSweep : ℕ := 4

/-- The slot that `layer_insert_lru` empties in a full cache. -/
def MoeStreamLayer.lruVictim (L : MoeStreamLayer) (now : UInt64) : Option ℕ :=
  (popInUse (L.key now) (fun i => 0 < (L.lruSlots i).inuse) L.requeueCap L.heap []).2.2

namespace MoeTieredLayer

def init (lruCap tierCap : ℕ) (pins : List (ℕ × PinResult)) : MoeTieredLayer F :=
  ⟨.init lruCap tierCap pins, .start, 0, fun _ => none, []⟩

variable (p : MoeTierPolicy F) (s : MoeTieredLayer F)

def layer : MoeStreamLayer := s.stream.layer

def withLayer (L : MoeStreamLayer) : MoeTieredLayer F :=
  { s with stream := { s.stream with layer := L } }

/-- Something has happened to expert `e`. -/
def happened (e : ℕ) : MoeTieredLayer F :=
  { s with noted := Function.update s.noted e (some s.tier.step) }

/-- `tier_note_move` of something that has happened. -/
def noteMove (e : ℕ) : MoeTieredLayer F :=
  { s.happened e with
    tier := s.tier.setState e { s.tier.tstate e with lastMove := s.tier.step } }

/-- The expert of `slot` leaves it. -/
def moving (slot : MoeExpertSlot) (swap : Option (F × F)) : MoeTieredLayer F :=
  match slot.eid with
  | none => s
  | some e => { s with moves := s.moves ++ [⟨e, s.tier.step, slot.inuse, s.noted e, swap⟩] }

/-- `tier_score`, of the expert in a slot -/
def slotScore (slot : MoeExpertSlot) : F :=
  slot.eid.elim 0 fun e => p.scoreAt (s.tier.tstate e).score s.tier.step

def mayMove (e : ℕ) : Bool := p.mayMove (s.tier.tstate e).lastMove s.tier.step

/-- `tier_movable` -/
def movable (slot : MoeExpertSlot) : Bool := slot.movable && slot.eid.all (s.mayMove p)

/-- `tier_weakest_index` -/
def tierWeakestIndex : Option ℕ :=
  (List.range s.layer.tierCap).foldl (fun weakest t =>
    if s.movable p (s.layer.tierSlots t) then
      weakest.elim (some t) fun w =>
        if s.slotScore p (s.layer.tierSlots t) < s.slotScore p (s.layer.tierSlots w) then some t
        else weakest
    else weakest) none

/-- The tier slot whose expert the one in LRU slot `i` beats. -/
def tierVictim (i : ℕ) : Option ℕ :=
  (s.tierWeakestIndex p).filter fun v =>
    p.beats (s.slotScore p (s.layer.lruSlots i)) (s.slotScore p (s.layer.tierSlots v))

/-- `tier_evict` -/
def tierEvict (i : ℕ) (clock : UInt64) : MoeTieredLayer F :=
  let slot := s.layer.lruSlots i
  let s' := (s.moving slot none).withLayer (s.layer.lruSlotClear i clock)
  slot.eid.elim s' fun e => s'.noteMove e

/-- `tier_promote` of the expert `e` in LRU slot `i`, with the number of moves. -/
def tierPromote (i e : ℕ) (io : SweepIo) (clock : UInt64) : MoeTieredLayer F × ℕ :=
  let host := s.layer.lruSlots i
  let victim := s.tierVictim p i
  let L := s.layer.tierPromote i victim (io.uploaded i) (io.refilled i) clock
  match s.layer.tierFreeIndex, victim with
  | none, none => (s, 0)
  | some _, _ =>
    if io.uploaded i then (((s.moving host none).withLayer L).noteMove e, 1)
    else (s.noteMove e, 0)
  | none, some v =>
    if io.uploaded i then
      let out := s.layer.tierSlots v
      let swap := some (s.slotScore p host, s.slotScore p out)
      if io.refilled i then
        let s' := ((s.moving host swap).moving out swap).withLayer L
        ((out.eid.elim s' fun ve => s'.noteMove ve).noteMove e, 1)
      else
        -- the LRU slot has been cleared, and of the two only the challenger is noted
        let s' := (s.moving host none).withLayer L
        ((out.eid.elim s' fun ve => s'.happened ve).noteMove e, 0)
    else (s.noteMove e, 0)

/-- `tier_demote` of the expert `e` in tier slot `t`, with the number of moves. -/
def tierDemote (t e : ℕ) (io : SweepIo) (clock : UInt64) : MoeTieredLayer F × ℕ :=
  let L := s.layer.tierDemote t (io.demoted t) clock
  match (s.layer.layerInsertLru e clock).2 with
  | none => ((s.withLayer L).happened e, 0)
  | some i =>
    -- in a full cache the expert of the slot has to go
    let s' := if s.layer.nLru < s.layer.lruCap then s else s.moving (s.layer.lruSlots i) none
    if io.demoted t then
      (((s'.moving (s.layer.tierSlots t) none).withLayer L).noteMove e, 1)
    else ((s'.withLayer L).noteMove e, 0)

/-- One round of the first loop of `tier_sweep`. -/
def tierRound (io : SweepIo) (clock : UInt64) (r : MoeTieredLayer F × ℕ) (t : ℕ) :
    MoeTieredLayer F × ℕ :=
  let ts := r.1.layer.tierSlots t
  if r.2 < tierMovesPerSweep ∧ r.1.movable p ts ∧
      p.decide (r.1.slotScore p ts) 1 1 = .demote then
    ts.eid.elim r fun e =>
      let d := r.1.tierDemote t e io clock
      (d.1, r.2 + d.2)
  else r

/-- One round of the second. -/
def lruRound (io : SweepIo) (clock : UInt64) (r : MoeTieredLayer F × ℕ) (i : ℕ) :
    MoeTieredLayer F × ℕ :=
  let slot := r.1.layer.lruSlots i
  if r.2 < tierMovesPerSweep ∧ r.1.movable p slot then
    match p.decide (r.1.slotScore p slot) 0 1 with
    | .evict => (r.1.tierEvict i clock, r.2)
    | .promote =>
      slot.eid.elim r fun e =>
        let d := r.1.tierPromote p i e io clock
        (d.1, r.2 + d.2)
    | _ => r
  else r

/-- After the first loop. -/
def swept (io : SweepIo) (clock : UInt64) : MoeTieredLayer F × ℕ :=
  (List.range s.layer.tierCap).foldl (tierRound p io clock) (s, 0)

/-- `tier_sweep` -/
def tierSweep (io : SweepIo) (clock : UInt64) : MoeTieredLayer F :=
  let r := s.swept p io clock
  ((List.range r.1.layer.nLru).foldl (lruRound p io clock) r).1

/-- `tier_maintain` finds that a sweep is due. -/
def sweepDue : Bool := 0 < s.layer.tierCap ∧ tierSweepInterval ≤ s.tier.step - s.lastSweep

end MoeTieredLayer

/-- What happens under the lock of the layer: the parts of a resolve, the end of a fetch, a
release, and `tier_maintain`. -/
inductive MoeTierOp
  | request (ids : List ℤ)
  | lookup (e : ℕ) (now : UInt64)
  | miss (e : ℕ) (now : UInt64)
  | commit (k : ℕ) (fetched : Bool)
  | release (e : ℕ)
  | maintain (io : SweepIo) (clock : UInt64)

namespace MoeTieredLayer

variable (p : MoeTierPolicy F) (nExperts : ℕ) (s : MoeTieredLayer F)

/-- A miss comes after a resolve has scored its requests. From then on its expert counts as
loaded, if it was given a slot. -/
def miss (e : ℕ) (now : UInt64) : MoeTieredLayer F :=
  if s.tier.step = 0 ∨ s.layer.liveSlotFind e ≠ none then s
  else
    let s' := { s with stream := s.stream.miss e now }
    if (s.layer.layerInsertLru e now).2 = none then s' else s'.noteMove e

def apply : MoeTierOp → MoeTieredLayer F
  | .request ids => { s with tier := s.tier.scoreRequests p nExperts ids }
  | .lookup e now => { s with stream := s.stream.apply (.lookup e now) }
  | .miss e now => s.miss e now
  | .commit k fetched => { s with stream := s.stream.apply (.commit k fetched) }
  | .release e => { s with stream := s.stream.apply (.release e) }
  | .maintain io clock =>
    if s.sweepDue then { s with lastSweep := s.tier.step }.tierSweep p io clock else s

/-- A demotion that is due finds room, or takes the slot of an expert that may move itself. -/
def DemotionFits (clock : UInt64) (r : MoeTieredLayer F × ℕ) (t : ℕ) : Prop :=
  let s := r.1
  r.2 < tierMovesPerSweep → s.movable p (s.layer.tierSlots t) = true →
    p.decide (s.slotScore p (s.layer.tierSlots t)) 1 1 = .demote →
      s.layer.nLru < s.layer.lruCap ∨
        ∃ i ∈ s.layer.lruVictim clock, ∀ v ∈ (s.layer.lruSlots i).eid, s.mayMove p v = true

instance (clock : UInt64) (r : MoeTieredLayer F × ℕ) (t : ℕ) :
    Decidable (DemotionFits p clock r t) := by
  unfold DemotionFits
  infer_instance

/-- The expert that is to be swapped out can be copied. -/
def SwapReads (io : SweepIo) (r : MoeTieredLayer F × ℕ) (i : ℕ) : Prop :=
  let s := r.1
  r.2 < tierMovesPerSweep → s.movable p (s.layer.lruSlots i) = true →
    p.decide (s.slotScore p (s.layer.lruSlots i)) 0 1 = .promote →
      s.layer.tierFreeIndex = none → (s.tierVictim p i).isSome = true →
        io.uploaded i = true → io.refilled i = true

instance (io : SweepIo) (r : MoeTieredLayer F × ℕ) (i : ℕ) : Decidable (SwapReads p io r i) := by
  unfold SwapReads
  infer_instance

/-- A sweep whose demotions fit and whose swaps can be read. -/
def Undisturbed (s : MoeTieredLayer F) : MoeTierOp → Prop
  | .maintain io clock =>
    s.sweepDue = true →
      let s' : MoeTieredLayer F := { s with lastSweep := s.tier.step }
      SafeRun (tierRound p io clock) (DemotionFits p clock) (s', 0)
          (List.range s.layer.tierCap) ∧
        SafeRun (lruRound p io clock) (SwapReads p io) (s'.swept p io clock)
          (List.range (s'.swept p io clock).1.layer.nLru)
  | _ => True

instance (s : MoeTieredLayer F) (op : MoeTierOp) : Decidable (Undisturbed p s op) :=
  match op with
  | .maintain io clock => by
    unfold Undisturbed
    infer_instance
  | .request _ => isTrue trivial
  | .lookup _ _ => isTrue trivial
  | .miss _ _ => isTrue trivial
  | .commit _ _ => isTrue trivial
  | .release _ => isTrue trivial

end MoeTieredLayer

/-- The move kept to the policy: the expert was not in use, it had its residency, and a
challenger's score exceeded that of the incumbent by the margin. -/
structure TierMove.Keeps (p : MoeTierPolicy F) (m : TierMove F) : Prop where
  inuse : m.inuse = 0
  rested : ∀ t ∈ m.noted, t ≤ m.step ∧ p.minResidency ≤ ((m.step - t : ℕ) : ℤ)
  margin : ∀ x ∈ m.swap, x.2 * p.swapMargin < x.1

end Kappai
