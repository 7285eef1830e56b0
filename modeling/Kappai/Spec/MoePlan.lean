import Kappai.Spec.Hcs

/-! Where an expert cache over several devices puts its experts: how many are pinned on each, which
experts these are, and how many slots the device tier has. -/

namespace Kappai

variable {B : Type*}

/-- One of `expert_parts` with its `expert_pins`; the backend of a host device is `NULL`. -/
structure MoePart (B : Type*) where
  be : Option B
  count : ℕ
  priority : Option ℤ
  pins : Option Jinja.Text

/-- `apply_expert_parts` for one device; `backend` is `none` for devices of the host. -/
def HcsPart.moe (backend : String → Option B) (p : HcsPart) : MoePart B :=
  ⟨backend p.device, p.count, p.priority, p.pins⟩

/-- What the plan asks of the machine. -/
structure MoeMachine (B : Type*) where
  /-- `moe_backend_resident_capable` -/
  capable : B → Bool
  /-- `mem_topology_pool_of` for the pools that are not the host's; `none` also without a topology -/
  pool : B → Option ℕ
  poolAvailable : ℕ → ℕ
  hostAvailable : ℕ

/-- The settings and the sizes of the model that the plan reads. -/
structure MoePlanRequest where
  nExperts : ℕ
  nExpertsUsed : ℕ
  moeLayers : ℕ
  perExpert : ℕ
  hostPriority : ℤ
  moeStream : Bool
  disableFailsafes : Bool

/-- `moe_hcs_plan` -/
structure MoeHcsPlan (B : Type*) where
  nPinned : ℕ
  lruCap : ℕ
  pinBe : List (Option B)
  pinIds : Option (List ℕ)
  tierBe : Option B
  tierCap : ℕ
  tierPool : ℕ
deriving DecidableEq

inductive MoePlanError
  | outOfMemory
  | invalidArg
deriving DecidableEq, Repr

/-- `moe_tier_pool_budget` -/
def moeTierPoolBudget (available : ℕ) : ℕ := available - max (2 * 2 ^ 30) (available / 10)

/-- `moe_tier_fit` -/
def moeTierFit (budget layerBytes nExperts : ℕ) : ℕ :=
  if layerBytes = 0 then nExperts else min (budget / layerBytes) nExperts

/-- `moe_tier_pool_capacity` -/
def moeTierPoolCapacity (available layerBytes requested : ℕ) : ℕ :=
  min requested (moeTierFit (moeTierPoolBudget available) layerBytes requested)

namespace MoePart

variable (mc : MoeMachine B) (p : MoePart B)

/-- The ids that the pins are read as. -/
def listed : List ℤ := (p.pins.map fun text => hcsPinListIds text 128).getD []

def resident : Bool := p.be.any mc.capable

/-- The backend that holds the experts of a part: its own if that can, else the host. -/
def holder : Option B := p.be.filter mc.capable

/-- `moe_tier_part_pool` -/
def tierPool : Option ℕ := (p.holder mc).bind mc.pool

end MoePart

namespace MoePlanRequest

variable (rq : MoePlanRequest) (mc : MoeMachine B) (parts : List (MoePart B))

/-- A turn of `moe_pick_tier_part`: the best part so far and its priority. -/
def tierTurn (best : Option (MoePart B × ℕ) × ℤ) (r : MoePart B × ℕ) : Option (MoePart B × ℕ) × ℤ :=
  match if 0 < r.1.count then r.1.tierPool mc else none with
  | none => best
  | some pool =>
    let priority := (r.1.priority.filter (0 ≤ ·)).getD pool
    if best.2 < priority then (some r, priority) else best

/-- `moe_pick_tier_part`, with the part. -/
def pickTierPart : Option (MoePart B × ℕ) :=
  if rq.moeStream then (parts.zipIdx.foldl (tierTurn mc) (none, rq.hostPriority)).1 else none

def layerBytes : ℕ := rq.perExpert * rq.moeLayers

/-- The capacity of the pool that a part is in. -/
def tierCapacity (p : MoePart B) : ℕ :=
  moeTierPoolCapacity (mc.poolAvailable ((p.tierPool mc).getD 0)) rq.layerBytes p.count

/-- `tier_cap` of a part once slots are reserved for its pins. -/
def tierSlots (p : MoePart B) : ℕ :=
  match p.pins with
  | none => rq.tierCapacity mc p
  | some _ =>
    if p.listed.length < rq.tierCapacity mc p then rq.tierCapacity mc p - p.listed.length
    else p.listed.length

/-- `tier_part` as the rest of the plan sees it. -/
def tierPart : Option (MoePart B × ℕ) := (rq.pickTierPart mc parts).filter fun r => 0 < rq.tierSlots mc r.1

/-- The part at a position is the tier. -/
def isTier (i : ℕ) : Bool := (rq.tierPart mc parts).any (·.2 = i)

/-- `n_dev` and the sum of `n_host` after a part. -/
def countTurn (acc : ℕ × ℕ) (r : MoePart B × ℕ) : ℕ × ℕ :=
  if rq.isTier mc parts r.2 then acc
  else if r.1.resident mc then (acc.1 + min r.1.count (rq.nExperts - acc.1), acc.2)
  else (acc.1, acc.2 + r.1.count)

/-- `n_dev`, and `n_host` as it is cut to what is left. -/
def counts : ℕ × ℕ :=
  let acc := parts.zipIdx.foldl (rq.countTurn mc parts) (0, 0)
  (acc.1, min acc.2 (rq.nExperts - acc.1))

/-- `fit` -/
def hostFit : ℕ := moeTierFit (moeTierPoolBudget mc.hostAvailable) rq.layerBytes rq.nExperts

/-- `pin_host` and `lru_need`. -/
def hostCounts : Except MoePlanError (ℕ × ℕ) :=
  let (nDev, nHost) := rq.counts mc parts
  let unassigned := rq.nExperts - nDev - nHost
  if (rq.tierPart mc parts).isSome then .ok (0, unassigned + nHost)
  else if rq.hostFit mc < nHost then
    if !rq.moeStream && !rq.disableFailsafes then .error .outOfMemory
    else if rq.moeStream then .ok (0, unassigned + nHost)
    else .ok (nHost, unassigned)
  else .ok (nHost, unassigned)

/-- `lru_cap` -/
def lruCap (pinHost lruNeed : ℕ) : ℕ :=
  let cap := min lruNeed (rq.hostFit mc - pinHost)
  let cap := if 0 < lruNeed ∧ cap < rq.nExpertsUsed then min lruNeed rq.nExpertsUsed else cap
  min (max cap 1) 1024

/-- How many of the `left` experts each part pins; `i` is the position of the first. -/
def shares : ℕ → ℕ → List (MoePart B) → List ℕ
  | _, _, [] => []
  | i, left, p :: ps =>
    if !p.resident mc || rq.isTier mc parts i then 0 :: shares (i + 1) left ps
    else min p.count left :: shares (i + 1) (left - min p.count left) ps

end MoePlanRequest

/-! ### The ids of the pins -/

/-- `used`, and `pin_ids` with `pin_be` so far. -/
structure PinTable (B : Type*) where
  used : ℕ → Bool
  pins : List (ℕ × Option B)
  seq : ℕ

namespace PinTable

def empty : PinTable B := ⟨fun _ => false, [], 0⟩

variable (t : PinTable B)

def push (e : ℕ) (be : Option B) : PinTable B :=
  { t with used := Function.update t.used e true, pins := t.pins ++ [(e, be)] }

/-- The turn of `moe_plan_pins` for a listed id. -/
def pin (nExperts : ℕ) (be : Option B) (t : PinTable B) (e : ℤ) : Except MoePlanError (PinTable B) :=
  if e < 0 ∨ (nExperts : ℤ) ≤ e then .error .invalidArg
  else if t.used e.toNat then .error .invalidArg
  else .ok (t.push e.toNat be)

/-- `k` more pins, each the first id that is not in use. -/
def fill (nExperts : ℕ) (be : Option B) : ℕ → PinTable B → PinTable B
  | 0, t => t
  | k + 1, t =>
    match (List.range' t.seq (nExperts - t.seq)).find? fun e => !t.used e with
    | none => { t with seq := nExperts }
    | some e => fill nExperts be k { t.push e be with seq := e + 1 }

end PinTable

namespace MoePlanRequest

variable (rq : MoePlanRequest) (mc : MoeMachine B) (parts : List (MoePart B))

/-- The listed ids of all parts, each with the backend it goes to. -/
def allListed : List (ℤ × Option B) := parts.flatMap fun p => p.listed.map fun e => (e, p.holder mc)

/-- `moe_plan_pins` where pins are listed. -/
def planPins (nDev pinHost : ℕ) : Except MoePlanError (PinTable B) := do
  let t ← (allListed mc parts).foldlM (fun t r => PinTable.pin rq.nExperts r.2 t r.1) PinTable.empty
  let t := ((parts.zip (rq.shares mc parts 0 nDev parts)).foldl
    (fun t r => PinTable.fill rq.nExperts (r.1.holder mc) (r.2 - r.1.listed.length) t) t)
  let hostListed := ((parts.filter fun p => p.be.isNone).map fun p => p.listed.length).sum
  .ok (PinTable.fill rq.nExperts none (pinHost - hostListed) t)

/-- `pin_be` before any ids are listed. -/
def pinBackends (nDev pinHost : ℕ) : List (Option B) :=
  ((parts.zip (rq.shares mc parts 0 nDev parts)).flatMap fun r => List.replicate r.2 r.1.be) ++
    List.replicate pinHost none

/-- What `moe_plan_hcs` has planned before it looks at the pins. -/
def basePlan (pinHost lruNeed : ℕ) : MoeHcsPlan B where
  nPinned := (rq.counts mc parts).1 + pinHost
  lruCap := rq.lruCap mc pinHost lruNeed
  pinBe := rq.pinBackends mc parts (rq.counts mc parts).1 pinHost
  pinIds := none
  tierBe := (rq.tierPart mc parts).bind (·.1.be)
  tierCap := ((rq.tierPart mc parts).map fun r => rq.tierSlots mc r.1).getD 0
  tierPool := ((rq.pickTierPart mc parts).bind (·.1.tierPool mc)).getD 0

/-- `moe_plan_hcs` -/
def plan : Except MoePlanError (MoeHcsPlan B) :=
  match rq.hostCounts mc parts with
  | .error e => .error e
  | .ok (pinHost, lruNeed) =>
    if allListed mc parts = [] then .ok (rq.basePlan mc parts pinHost lruNeed)
    else match rq.planPins mc parts (rq.counts mc parts).1 pinHost with
      | .error e => .error e
      | .ok t => .ok { rq.basePlan mc parts pinHost lruNeed with
          nPinned := t.pins.length
          pinBe := t.pins.map (·.2)
          pinIds := if t.pins = [] then none else some (t.pins.map (·.1)) }

/-- The pins are different experts of the model, and each listed one is held where its part is. -/
def PinsPlaced (plan : MoeHcsPlan B) : Prop :=
  let ids := plan.pinIds.getD (List.range plan.nPinned)
  plan.nPinned ≤ rq.nExperts ∧ ids.length = plan.nPinned ∧ ids.Nodup ∧ (∀ e ∈ ids, e < rq.nExperts) ∧
    ∀ p ∈ parts, ∀ e ∈ p.listed, ∃ k id : ℕ, (id : ℤ) = e ∧ ids[k]? = some id ∧
      plan.pinBe[k]? = some (p.holder mc)

/-- The slots of the tier and those reserved for its pins are not more than its pool has room for. -/
def TierFits : Prop :=
  ∀ r, rq.pickTierPart mc parts = some r →
    rq.tierSlots mc r.1 + r.1.listed.length ≤ rq.tierCapacity mc r.1

end MoePlanRequest

end Kappai
