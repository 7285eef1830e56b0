import Mathlib.Data.Nat.Notation
import Mathlib.Data.Int.Notation
import Mathlib.Tactic.Common

/-! Which device or the host computes the experts of a token: `moe_exec_dispatch`. Whom an expert
belongs to and what a submit says are inputs. -/

namespace Kappai

/-- `MOE_EXEC_MAX_TARGETS` -/
def moeExecMaxTargets : ℕ := 4

/-- A pending `moe_exec_target`, with the ids it was submitted with: -1 where the expert of an index
belongs to another. -/
structure MoePending (B : Type*) where
  be : B
  direct : Bool
  ids : List ℤ

/-- `moe_exec_pending`, without the targets from `n` on. -/
structure MoeExecPending (B : Type*) where
  targets : List (MoePending B)
  nDirect : ℕ

/-- A `moe_exec_request` with what the calls made for it say: the owner of the expert of an index,
whether the input can be read, and whether the submit of a target at its place in the list is `OK`. -/
structure MoeExecRequest (B : Type*) where
  expertIds : List ℤ
  nExperts : ℕ
  hasX : Bool
  hasOut : Bool
  live : ℕ → ℕ → Option B
  reads : Bool
  submits : ℕ → MoePending B → Bool

/-- `owners`, `host_ids`, the pending targets and `n_dev`. -/
structure MoeDispatch (B : Type*) where
  owners : ℕ → Option B
  hostIds : ℕ → ℤ
  pend : MoeExecPending B
  nDev : ℕ

namespace MoeExecRequest

variable {B : Type*} (rq : MoeExecRequest B)

/-- `expert_ids[k]` -/
def expertId (k : ℕ) : ℤ := rq.expertIds.getD k (-1)

/-- `moe_stream_expert_owner` as it is called for index `k`. -/
def expertOwner (k : ℕ) : Option B :=
  if rq.expertId k < 0 ∨ rq.nExperts ≤ rq.expertId k then none else rq.live k (rq.expertId k).toNat

/-- `collect_owners` -/
def collectOwners (pend : MoeExecPending B) : MoeDispatch B where
  owners := rq.expertOwner
  hostIds := fun k => if (rq.expertOwner k).isSome then -1 else rq.expertId k
  pend := pend
  nDev := 0

variable [DecidableEq B]

/-- The slot `submit_target` fills. -/
def target (localBe eb : B) (d : MoeDispatch B) : MoePending B where
  be := eb
  direct := eb = localBe ∧ rq.hasOut ∧ d.pend.nDirect = 0
  ids := (List.range rq.expertIds.length).map fun k =>
    if d.owners k = some eb then rq.expertId k else -1

/-- The indices of one owner. -/
def mine (eb : B) (d : MoeDispatch B) : List ℕ :=
  (List.range rq.expertIds.length).filter fun k => d.owners k = some eb

/-- `submit_target` -/
def submitTarget (localBe eb : B) (d : MoeDispatch B) : MoeDispatch B :=
  let t := rq.target localBe eb d
  let ok := d.pend.targets.length < moeExecMaxTargets ∧ rq.submits d.pend.targets.length t
  { owners := fun k => if k ∈ rq.mine eb d then none else d.owners k
    hostIds := fun k => if k ∈ rq.mine eb d ∧ ¬ok then rq.expertId k else d.hostIds k
    pend := if ok then ⟨d.pend.targets ++ [t], d.pend.nDirect + t.direct.toNat⟩ else d.pend
    nDev := if ok then d.nDev + (rq.mine eb d).length else d.nDev }

/-- The body of the loop over the indices: the devices that are not local go in the first pass. -/
def passTurn (localBe : B) (second : Bool) (d : MoeDispatch B) (k : ℕ) : MoeDispatch B :=
  match d.owners k with
  | some eb => if decide (eb = localBe) = second then rq.submitTarget localBe eb d else d
  | none => d

def pass (localBe : B) (second : Bool) (d : MoeDispatch B) : MoeDispatch B :=
  (List.range rq.expertIds.length).foldl (rq.passTurn localBe second) d

/-- `moe_exec_dispatch` behind the upkeep of the tier. -/
def dispatch (localBe : B) (pend : MoeExecPending B) : MoeDispatch B :=
  let d := rq.collectOwners pend
  if (List.range rq.expertIds.length).any fun k => (rq.expertOwner k).isSome then
    if rq.hasX ∨ rq.reads then rq.pass localBe true (rq.pass localBe false d)
    else { d with hostIds := rq.expertId }
  else d

end MoeExecRequest

/-- The targets of a list that compute index `k`. -/
def computing {B : Type*} (targets : List (MoePending B)) (k : ℕ) : List (MoePending B) :=
  targets.filter fun t => t.ids.getD k (-1) ≠ -1

/-- The pending targets after dispatches, each with its local device. `none` is a
`moe_exec_gather`. -/
def MoeExecPending.after {B : Type*} [DecidableEq B]
    (history : List (Option (MoeExecRequest B × B))) : MoeExecPending B :=
  history.foldl (fun pend call =>
    match call with
    | some (rq, localBe) => (rq.dispatch localBe pend).pend
    | none => ⟨[], 0⟩) ⟨[], 0⟩

/-! A dispatch hands every expert to one device or leaves it to the host. Between two submits an index
either still has its owner, and nobody computes it yet, or it has been given away for good. -/

variable {B : Type*} {rq : MoeExecRequest B} {localBe eb : B} {k : ℕ}
  {start pend : MoeExecPending B} {new : List (MoePending B)} {d : MoeDispatch B}

namespace MoeExecRequest

theorem expertOwner_some (h : rq.expertOwner k = some eb) : 0 ≤ rq.expertId k := by
  unfold expertOwner at h
  split_ifs at h with hbad
  omega

/-- What a dispatch has done with index `k` once its owner is looked for no more. -/
def Given (rq : MoeExecRequest B) (new : List (MoePending B)) (d : MoeDispatch B) (k : ℕ) : Prop :=
  (∃ t, computing new k = [t] ∧ t.ids.getD k (-1) = rq.expertId k) ∧ d.hostIds k = -1 ∨
    computing new k = [] ∧ d.hostIds k = rq.expertId k

/-- The state between two submits, with the targets that are new. -/
structure Shares (rq : MoeExecRequest B) (start : MoeExecPending B) (new : List (MoePending B))
    (d : MoeDispatch B) : Prop where
  targets : d.pend.targets = start.targets ++ new
  waits : ∀ k < rq.expertIds.length, ∀ eb, d.owners k = some eb →
    0 ≤ rq.expertId k ∧ computing new k = [] ∧ d.hostIds k = -1
  given : ∀ k < rq.expertIds.length, d.owners k = none → rq.Given new d k
  count : d.nDev = (List.range rq.expertIds.length).countP fun k => computing new k ≠ []
  direct : start.nDirect = start.targets.countP MoePending.direct → start.nDirect ≤ 1 →
    d.pend.nDirect = d.pend.targets.countP MoePending.direct ∧ d.pend.nDirect ≤ 1

theorem collectOwners_shares (rq : MoeExecRequest B) (pend : MoeExecPending B) :
    rq.Shares pend [] (rq.collectOwners pend) where
  targets := (List.append_nil _).symm
  waits k _ eb h := by
    have how : rq.expertOwner k = some eb := h
    exact ⟨expertOwner_some how, rfl, by simp [collectOwners, how]⟩
  given k _ h := by
    have how : rq.expertOwner k = none := h
    exact Or.inr ⟨rfl, by simp [collectOwners, how]⟩
  count := by simp [collectOwners, computing]
  direct h hle := ⟨h, hle⟩

variable [DecidableEq B]

theorem mem_mine : k ∈ rq.mine eb d ↔ k < rq.expertIds.length ∧ d.owners k = some eb := by
  simp [mine]

theorem target_ids (eb localBe : B) (d : MoeDispatch B) (hk : k < rq.expertIds.length) :
    (rq.target localBe eb d).ids.getD k (-1) =
      if d.owners k = some eb then rq.expertId k else -1 := by
  simp [target, List.getD_eq_getElem?_getD, hk]

/-- A new target computes the indices that belong to it. -/
theorem computing_append_target (eb localBe : B) (hs : rq.Shares start new d)
    (hk : k < rq.expertIds.length) :
    computing (new ++ [rq.target localBe eb d]) k =
      if d.owners k = some eb then [rq.target localBe eb d] else computing new k := by
  have hids := target_ids eb localBe d hk
  unfold computing
  rw [List.filter_append, List.filter_cons, List.filter_nil]
  by_cases how : d.owners k = some eb
  · obtain ⟨hid, hnone, -⟩ := hs.waits k hk eb how
    rw [if_pos how] at hids
    have hne : rq.expertId k ≠ -1 := by omega
    rw [computing] at hnone
    rw [hnone, hids, if_pos how, if_pos (by simpa using hne), List.nil_append]
  · rw [if_neg how] at hids
    rw [hids, if_neg how, if_neg (by simp), List.append_nil]

theorem countP_disjoint {α : Type*} {p q r : α → Bool} {l : List α}
    (h : ∀ a ∈ l, q a = (p a || r a) ∧ ¬(p a = true ∧ r a = true)) :
    l.countP q = l.countP p + l.countP r := by
  induction l with
  | nil => rfl
  | cons a l ih =>
    have htail := ih fun b hb => h b (List.mem_cons_of_mem _ hb)
    obtain ⟨hq, hnot⟩ := h a List.mem_cons_self
    rw [List.countP_cons, List.countP_cons, List.countP_cons, htail, hq]
    cases hp : p a <;> cases hr : r a <;> simp_all <;> omega

/-- `submit_target` ends with `OK`. -/
def Accepts (rq : MoeExecRequest B) (localBe eb : B) (d : MoeDispatch B) : Prop :=
  d.pend.targets.length < moeExecMaxTargets ∧
    rq.submits d.pend.targets.length (rq.target localBe eb d)

/-- The new target has the indices of its device. -/
theorem Accepts.shares (hok : rq.Accepts localBe eb d) (hs : rq.Shares start new d) :
    rq.Shares start (new ++ [rq.target localBe eb d]) (rq.submitTarget localBe eb d) := by
  unfold Accepts at hok
  constructor
  case targets =>
    have htargets : (rq.submitTarget localBe eb d).pend.targets =
        d.pend.targets ++ [rq.target localBe eb d] := by simp [submitTarget, hok]
    rw [htargets, hs.targets, List.append_assoc]
  case waits =>
    intro k hk b how
    have hmine : k ∉ rq.mine eb d := fun hmem => by simp [submitTarget, hmem] at how
    have hne : d.owners k ≠ some eb := fun heb => hmine (mem_mine.2 ⟨hk, heb⟩)
    obtain ⟨hid, hnone, hhost⟩ := hs.waits k hk b (by simpa [submitTarget, hmine] using how)
    refine ⟨hid, ?_, by simpa [submitTarget, hmine] using hhost⟩
    rw [computing_append_target _ localBe hs hk, if_neg hne, hnone]
  case given =>
    intro k hk how
    have hcomp := computing_append_target eb localBe hs hk
    by_cases hmine : k ∈ rq.mine eb d
    · have heb := (mem_mine.1 hmine).2
      rw [if_pos heb] at hcomp
      refine Or.inl ⟨⟨_, hcomp, by rw [target_ids eb localBe d hk, if_pos heb]⟩, ?_⟩
      simpa [submitTarget, hok] using (hs.waits k hk eb heb).2.2
    · have hne : d.owners k ≠ some eb := fun heb => hmine (mem_mine.2 ⟨hk, heb⟩)
      rw [if_neg hne] at hcomp
      have hgiven := hs.given k hk (by simpa [submitTarget, hmine] using how)
      unfold Given at hgiven ⊢
      rw [hcomp]
      simpa [submitTarget, hmine] using hgiven
  case count =>
    have hmine : (rq.mine eb d).length = (List.range rq.expertIds.length).countP
        fun k => d.owners k = some eb := List.countP_eq_length_filter.symm
    have hsum : (List.range rq.expertIds.length).countP
        (fun k => decide (computing (new ++ [rq.target localBe eb d]) k ≠ [])) =
          (List.range rq.expertIds.length).countP (fun k => decide (computing new k ≠ [])) +
            (List.range rq.expertIds.length).countP fun k => d.owners k = some eb := by
      refine countP_disjoint fun k hk => ?_
      rw [computing_append_target _ localBe hs (List.mem_range.1 hk)]
      by_cases heb : d.owners k = some eb
      · have hnone := (hs.waits k (List.mem_range.1 hk) eb heb).2.1
        simp [heb, hnone]
      · simp [heb]
    rw [hsum, ← hs.count, ← hmine]
    simp [submitTarget, hok]
  case direct =>
    intro hcount hle
    obtain ⟨hcount', hle'⟩ := hs.direct hcount hle
    by_cases hdir : (rq.target localBe eb d).direct
    · have hzero : d.pend.nDirect = 0 := by
        simp only [target, decide_eq_true_eq] at hdir
        exact hdir.2.2
      simp [submitTarget, hok, hdir, List.countP_append, ← hcount', hzero]
    · simp [submitTarget, hok, hdir, List.countP_append, ← hcount', hle']

/-- The host has the indices of a device whose submit has failed. -/
theorem Shares.refused (hs : rq.Shares start new d) (hok : ¬rq.Accepts localBe eb d) :
    rq.Shares start new (rq.submitTarget localBe eb d) := by
  unfold Accepts at hok
  constructor
  case targets =>
    have hpend : (rq.submitTarget localBe eb d).pend = d.pend := by simp [submitTarget, hok]
    rw [hpend, hs.targets]
  case waits =>
    intro k hk b how
    have hmine : k ∉ rq.mine eb d := fun hmem => by simp [submitTarget, hmem] at how
    have hwaits := hs.waits k hk b (by simpa [submitTarget, hmine] using how)
    simpa [submitTarget, hmine] using hwaits
  case given =>
    intro k hk how
    by_cases hmine : k ∈ rq.mine eb d
    · have hnone := (hs.waits k hk eb (mem_mine.1 hmine).2).2.1
      exact Or.inr ⟨hnone, by simp [submitTarget, hmine, hok]⟩
    · have hgiven := hs.given k hk (by simpa [submitTarget, hmine] using how)
      unfold Given at hgiven ⊢
      simpa [submitTarget, hmine] using hgiven
  case count => simpa [submitTarget, hok] using hs.count
  case direct => simpa [submitTarget, hok] using hs.direct

theorem Shares.submitTarget (hs : rq.Shares start new d) (localBe eb : B) :
    ∃ new', rq.Shares start new' (rq.submitTarget localBe eb d) := by
  by_cases hok : rq.Accepts localBe eb d
  · exact ⟨_, hok.shares hs⟩
  · exact ⟨_, hs.refused hok⟩

/-- Owners are forgotten, and nothing else happens to them. -/
theorem passTurn_owners (rq : MoeExecRequest B) (localBe : B) (second : Bool) (d : MoeDispatch B)
    (j k : ℕ) :
    (rq.passTurn localBe second d j).owners k = d.owners k ∨
      (rq.passTurn localBe second d j).owners k = none := by
  unfold passTurn
  split
  · next eb _ =>
    split_ifs
    · by_cases hmine : k ∈ rq.mine eb d
      · exact Or.inr (by simp [MoeExecRequest.submitTarget, hmine])
      · exact Or.inl (by simp [MoeExecRequest.submitTarget, hmine])
    · exact Or.inl rfl
  · exact Or.inl rfl

/-- The owners a pass leaves behind: none of those it is for. -/
theorem passTurn_done (localBe : B) (second : Bool) (d : MoeDispatch B)
    (hk : k < rq.expertIds.length) :
    ∀ eb, (rq.passTurn localBe second d k).owners k = some eb → decide (eb = localBe) ≠ second := by
  intro eb how
  unfold passTurn at how
  split at how
  · next b hb =>
    split_ifs at how with hturn
    · have hmine : k ∈ rq.mine b d := mem_mine.2 ⟨hk, hb⟩
      simp [MoeExecRequest.submitTarget, hmine] at how
    · rw [hb] at how
      rwa [← Option.some.inj how]
  · next hnone =>
    rw [hnone] at how
    cases how

/-- One pass: what it is for has been given away. -/
theorem pass_spec (hs : rq.Shares start new d) (localBe : B) (second : Bool) :
    (∃ new', rq.Shares start new' (rq.pass localBe second d)) ∧
      (∀ k, (rq.pass localBe second d).owners k = d.owners k ∨
        (rq.pass localBe second d).owners k = none) ∧
      ∀ k < rq.expertIds.length, ∀ eb, (rq.pass localBe second d).owners k = some eb →
        decide (eb = localBe) ≠ second := by
  suffices hrun : ∀ n ≤ rq.expertIds.length,
      (∃ new', rq.Shares start new' ((List.range n).foldl (rq.passTurn localBe second) d)) ∧
        (∀ k, ((List.range n).foldl (rq.passTurn localBe second) d).owners k = d.owners k ∨
          ((List.range n).foldl (rq.passTurn localBe second) d).owners k = none) ∧
        ∀ k < n, ∀ eb, ((List.range n).foldl (rq.passTurn localBe second) d).owners k = some eb →
          decide (eb = localBe) ≠ second from hrun _ (Nat.le_refl _)
  intro n
  induction n with
  | zero => exact fun _ => ⟨⟨new, hs⟩, fun k => Or.inl rfl, fun k hk => absurd hk (Nat.not_lt_zero k)⟩
  | succ n ih =>
    intro hn
    obtain ⟨⟨new', hs'⟩, hkeep, hdone⟩ := ih (by omega)
    rw [List.range_succ, List.foldl_append, List.foldl_cons, List.foldl_nil]
    generalize (List.range n).foldl (rq.passTurn localBe second) d = d' at hs' hkeep hdone ⊢
    refine ⟨?_, fun k => ?_, fun k hk eb how => ?_⟩
    · unfold passTurn
      split
      · split_ifs
        · exact hs'.submitTarget localBe _
        · exact ⟨new', hs'⟩
      · exact ⟨new', hs'⟩
    · rcases passTurn_owners rq localBe second d' n k with hsame | hnone
      · rw [hsame]
        exact hkeep k
      · exact Or.inr hnone
    · rcases Nat.lt_succ_iff_lt_or_eq.1 hk with hlt | rfl
      · refine hdone k hlt eb ?_
        rcases passTurn_owners rq localBe second d' n k with hsame | hnone
        · rwa [← hsame]
        · rw [hnone] at how
          cases how
      · exact passTurn_done localBe second d' (by omega) eb how

/-- Every index is given away in the end. -/
theorem dispatch_spec (rq : MoeExecRequest B) (localBe : B) (pend : MoeExecPending B) :
    ∃ new, (rq.dispatch localBe pend).pend.targets = pend.targets ++ new ∧
      (∀ k < rq.expertIds.length, rq.Given new (rq.dispatch localBe pend) k) ∧
      (rq.dispatch localBe pend).nDev =
        (List.range rq.expertIds.length).countP (fun k => computing new k ≠ []) ∧
      (pend.nDirect = pend.targets.countP MoePending.direct → pend.nDirect ≤ 1 →
        (rq.dispatch localBe pend).pend.nDirect =
            (rq.dispatch localBe pend).pend.targets.countP MoePending.direct ∧
          (rq.dispatch localBe pend).pend.nDirect ≤ 1) := by
  have hstart := collectOwners_shares rq pend
  unfold dispatch
  dsimp only
  split_ifs with hany hx
  · obtain ⟨⟨new₁, hs₁⟩, -, hremote⟩ := pass_spec hstart localBe false
    obtain ⟨⟨new₂, hs₂⟩, hkeep, hlocal⟩ := pass_spec hs₁ localBe true
    refine ⟨new₂, hs₂.targets, fun k hk => hs₂.given k hk ?_, hs₂.count, hs₂.direct⟩
    cases how : (rq.pass localBe true (rq.pass localBe false (rq.collectOwners pend))).owners k with
    | none => rfl
    | some eb =>
      refine absurd ?_ (hlocal k hk eb how)
      rcases hkeep k with hsame | hnone
      · exact Bool.ne_false_iff.1 (hremote k hk eb (hsame ▸ how))
      · rw [hnone] at how
        cases how
  · refine ⟨[], hstart.targets, fun k _ => Or.inr ⟨rfl, rfl⟩, hstart.count, hstart.direct⟩
  · refine ⟨[], hstart.targets, fun k hk => hstart.given k hk ?_, hstart.count, hstart.direct⟩
    rw [Bool.not_eq_true, List.any_eq_false] at hany
    exact Option.not_isSome_iff_eq_none.1 (hany k (List.mem_range.2 hk))

end MoeExecRequest

/-- Dispatches and gathers keep count of the targets that write the output, and have at most one. -/
theorem MoeExecPending.after_direct [DecidableEq B]
    (history : List (Option (MoeExecRequest B × B))) :
    (after history).nDirect = (after history).targets.countP MoePending.direct ∧
      (after history).nDirect ≤ 1 := by
  suffices hrun : ∀ pend : MoeExecPending B, pend.nDirect = pend.targets.countP MoePending.direct →
      pend.nDirect ≤ 1 → (history.foldl _ pend).nDirect =
        (history.foldl _ pend).targets.countP MoePending.direct ∧
          (history.foldl _ pend).nDirect ≤ 1 from hrun ⟨[], 0⟩ rfl (Nat.zero_le 1)
  induction history with
  | nil => exact fun _ hcount hle => ⟨hcount, hle⟩
  | cons call history ih =>
    intro pend hcount hle
    cases call with
    | none => exact ih ⟨[], 0⟩ rfl (Nat.zero_le 1)
    | some call =>
      obtain ⟨-, -, -, -, hdirect⟩ := call.1.dispatch_spec call.2 pend
      exact ih _ (hdirect hcount hle).1 (hdirect hcount hle).2

/-- After a dispatch every index is computed by one new target that was submitted with its expert, and
the host is told to leave it, or by the host alone. The count is that of the indices on devices, and
at most one pending target writes the output itself. -/
theorem moe_dispatch_shares [DecidableEq B] (history : List (Option (MoeExecRequest B × B)))
    (rq : MoeExecRequest B) (localBe : B) :
    let pend := MoeExecPending.after history
    let d := rq.dispatch localBe pend
    ∃ new, d.pend.targets = pend.targets ++ new ∧
      (∀ k < rq.expertIds.length, 0 ≤ rq.expertId k →
        (∃ t, computing new k = [t] ∧ t.ids.getD k (-1) = rq.expertId k) ∧ d.hostIds k = -1 ∨
          computing new k = [] ∧ d.hostIds k = rq.expertId k) ∧
      d.nDev = (List.range rq.expertIds.length).countP (fun k => computing new k ≠ []) ∧
      d.pend.targets.countP MoePending.direct ≤ 1 := by
  obtain ⟨hcount, hle⟩ := MoeExecPending.after_direct history
  obtain ⟨new, htargets, hgiven, hdev, hdirect⟩ :=
    rq.dispatch_spec localBe (MoeExecPending.after history)
  obtain ⟨hcount', hle'⟩ := hdirect hcount hle
  exact ⟨new, htargets, fun k hk _ => hgiven k hk, hdev, hcount' ▸ hle'⟩

end Kappai
