import Mathlib
import Kappai.Spec.Chat

/-! The memory pools of a list of backends: `mem_topology_build` and the totals of its pools. -/

namespace Kappai

namespace MemPools

/-- What is asked of a backend. No identity is a failed `backend_identity`. -/
structure Info where
  isHost : Bool
  unified : Bool
  priority : ℤ
  deviceIndex : ℤ
  identity : Option Text
  memTotal : ℕ
  memAvailable : ℕ

/-- `BACKEND_MAX` -/
def backendMax : ℕ := 8

def Info.sharesHostMemory (x : Info) : Bool := x.isHost || x.unified

/-- The difference of two `int`. -/
def intDiff (x y : ℤ) : ℤ := (x - y).bmod (2 ^ 32)

/-- `compare_discrete` -/
def compareDiscrete (x y : Info) : ℤ :=
  if x.priority ≠ y.priority then intDiff y.priority x.priority
  else intDiff x.deviceIndex y.deviceIndex

/-- `discrete_identity_match` -/
def identityMatch (x y : Info) : Bool :=
  match x.identity, y.identity with
  | some a, some b => !a.isEmpty && a == b
  | _, _ => false

/-- `mem_pool`, of pointers to backends. -/
structure MemPool (β : Type) where
  members : List β
  capacitySource : Option β
  isHost : Bool

variable {β : Type} [DecidableEq β]

/-- `add_member` -/
def addMember (p : MemPool β) (b : β) : MemPool β :=
  if b ∈ p.members then p else { p with members := p.members ++ [b] }

section Build

variable (info : β → Info)

/-- The first loop: the host pool, and the backends without host memory. -/
structure Scan (β : Type) where
  host : Option (MemPool β)
  discrete : List β

def addHost (p : MemPool β) (b : β) : MemPool β :=
  let p := addMember p b
  if p.capacitySource.all fun c => (info b).isHost && !(info c).isHost then
    { p with capacitySource := some b }
  else p

def scanStep (s : Scan β) : Option β → Scan β
  | none => s
  | some b =>
    if (info b).sharesHostMemory then
      { s with host := some (addHost info (s.host.getD ⟨[], none, true⟩) b) }
    else if s.discrete.length < backendMax - 1 then { s with discrete := s.discrete ++ [b] }
    else s

def scan (l : List (Option β)) : Scan β := l.foldl (scanStep info) ⟨none, []⟩

/-- `qsort` with `compare_discrete` -/
def sortDiscrete (d : List β) : List β :=
  d.mergeSort fun x y => decide (compareDiscrete (info x) (info y) ≤ 0)

def sameIdentity (d : List β) (i j : ℕ) : Bool :=
  (d[i]?).any fun x => (d[j]?).any fun y => identityMatch (info x) (info y)

end Build

/-- A turn of the two loops over pairs, among `n` backends. -/
def joinStep (n : ℕ) (same : ℕ → ℕ → Bool) (i : ℕ) (poolOf : ℕ → ℕ) (j : ℕ) : ℕ → ℕ :=
  if poolOf i ≠ i || !same i j then poolOf
  else fun k => if k < n ∧ poolOf k = i then poolOf j else poolOf k

def joinAll (n : ℕ) (same : ℕ → ℕ → Bool) : ℕ → ℕ :=
  (List.range n).foldl (fun poolOf i => (List.range i).foldl (joinStep n same i) poolOf) id

/-- `reindex` and `n_pools` -/
def reindexStep (poolOf : ℕ → ℕ) (s : (ℕ → ℕ) × ℕ) (i : ℕ) : (ℕ → ℕ) × ℕ :=
  if poolOf i ≠ i then s else (Function.update s.1 i s.2, s.2 + 1)

def reindexAll (n : ℕ) (poolOf : ℕ → ℕ) : (ℕ → ℕ) × ℕ :=
  (List.range n).foldl (reindexStep poolOf) (fun _ => 0, 0)

section Build

variable (info : β → Info)

/-- A backend put in its pool; the number is `best`. -/
def fillStep (s : MemPool β × ℕ) (b : β) : MemPool β × ℕ :=
  let p := addMember s.1 b
  if p.capacitySource.isNone || decide ((info b).memTotal > s.2) then
    ({ p with capacitySource := some b }, (info b).memTotal)
  else (p, s.2)

def fillPool (bs : List β) : MemPool β := (bs.foldl (fillStep info) (⟨[], none, false⟩, 0)).1

/-- The pools of the sorted backends without host memory. -/
def discretePools (d : List β) : List (MemPool β) :=
  let poolOf := joinAll d.length (sameIdentity info d)
  let r := reindexAll d.length poolOf
  (List.range r.2).map fun p =>
    fillPool info ((d.zipIdx.filter fun x => decide (r.1 (poolOf x.2) = p)).map (·.1))

/-- `mem_topology_build` -/
def memTopologyBuild (l : List (Option β)) : List (MemPool β) :=
  let s := scan info l
  s.host.toList ++ discretePools info (sortDiscrete info s.discrete)

/-- `mem_pool_total`, `mem_pool_available` -/
def MemPool.total (p : MemPool β) : ℕ := (p.capacitySource.map fun c => (info c).memTotal).getD 0

def MemPool.available (p : MemPool β) : ℕ := (p.capacitySource.map fun c => (info c).memAvailable).getD 0

/-- `mem_topology_total`, `mem_topology_available` -/
def memTopologyTotal (pools : List (MemPool β)) : ℕ := (pools.map (·.total info)).sum % 2 ^ 64

def memTopologyAvailable (pools : List (MemPool β)) : ℕ := (pools.map (·.available info)).sum % 2 ^ 64

/-- A pool as a set, with its capacity. -/
def MemPool.view (p : MemPool β) : Finset β × Bool × ℕ := (p.members.toFinset, p.isHost, p.total info)

/-- The backends of a list that have no host memory, as often as they are listed. -/
def discreteOf (l : List (Option β)) : List β := l.reduceOption.filter fun b => !(info b).sharesHostMemory

def hostsOf (l : List (Option β)) : List β := l.reduceOption.filter fun b => (info b).sharesHostMemory

/-- The backends without host memory have places of their own in the order, and no difference overflows. -/
structure Tieless (l : List (Option β)) : Prop where
  place : ∀ a ∈ discreteOf info l, ∀ b ∈ discreteOf info l, (info a).priority = (info b).priority →
    (info a).deviceIndex = (info b).deviceIndex → a = b
  small : ∀ a ∈ discreteOf info l, ∀ b ∈ discreteOf info l,
    (info a).priority - (info b).priority < 2 ^ 31 ∧ (info a).deviceIndex - (info b).deviceIndex < 2 ^ 31

/-- What the pools are for: every backend is counted once, with the ones whose memory is its own, and the
order of the list does not matter but for that of backends of one priority and index. -/
structure Grouped (l : List (Option β)) : Prop where
  once : ∀ b, some b ∈ l → ((memTopologyBuild info l).filter fun p => decide (b ∈ p.members)).length = 1
  share : ∀ a ∈ discreteOf info l, ∀ b ∈ discreteOf info l,
    (∃ p ∈ memTopologyBuild info l, a ∈ p.members ∧ b ∈ p.members) ↔
      a = b ∨ identityMatch (info a) (info b) = true
  host : ∀ p ∈ memTopologyBuild info l, p.isHost = true →
    (∀ b, b ∈ p.members ↔ b ∈ hostsOf info l) ∧
    ((∃ b ∈ hostsOf info l, (info b).isHost = true) → ∃ c ∈ p.capacitySource, (info c).isHost = true)
  oneHost : ((memTopologyBuild info l).filter fun p => p.isHost).length = if hostsOf info l = [] then 0 else 1
  order : ∀ l', l'.Perm l →
    ((memTopologyBuild info l').map (·.view info)).Perm ((memTopologyBuild info l).map (·.view info)) ∧
    memTopologyTotal info (memTopologyBuild info l') = memTopologyTotal info (memTopologyBuild info l)
  ordered : Tieless info l → ∀ l', l'.Perm l →
    (memTopologyBuild info l').map (fun p => (p.view info, p.available info)) =
      (memTopologyBuild info l).map fun p => (p.view info, p.available info)
  available : ∀ l', l'.Perm l →
    sortDiscrete info (scan info l').discrete = sortDiscrete info (scan info l).discrete →
    ((memTopologyBuild info l').map (·.available info)).Perm ((memTopologyBuild info l).map (·.available info)) ∧
    memTopologyAvailable info (memTopologyBuild info l') = memTopologyAvailable info (memTopologyBuild info l)

/-- A backend that can be the first to give the host pool its capacity. -/
def HostSource (l : List (Option β)) (b : β) : Prop :=
  b ∈ hostsOf info l ∧ ((info b).isHost = true ∨ ∀ c ∈ hostsOf info l, (info c).isHost = false)

/-- When the pools are right: a backend without host memory that is listed twice has an identity, none is
left out for those listed besides it, and the host pool has one capacity to choose from. -/
structure Listed (l : List (Option β)) : Prop where
  named : ∀ b, 2 ≤ (discreteOf info l).count b → ∃ t ∈ (info b).identity, t ≠ []
  room : ∀ b ∈ discreteOf info l, ((discreteOf info l).filter (· ≠ b)).length < backendMax - 1
  capacity : ∀ a b, HostSource info l a → HostSource info l b →
    (info a).memTotal = (info b).memTotal ∧ (info a).memAvailable = (info b).memAvailable

end Build

end MemPools

end Kappai
