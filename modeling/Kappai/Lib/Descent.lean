import Mathlib.Data.List.Basic
import Mathlib.Tactic.Common

/-! Recursive descent with error recovery. A parser records what is wrong and goes on, so a rule about
it has two parts: what holds of every run, errors or not, and what a run without a new error has read. -/

namespace Kappai

/-- The tokens from the current one on, the diagnostics so far and the number of open blocks. -/
structure Reader (τ ε : Type) where
  toks : List τ
  diagnostics : List ε
  depth : ℕ

/-- A parser. `none` stands for a run that was not given enough turns. -/
abbrev Descent (τ ε : Type) := StateT (Reader τ ε) Option

/-- How a turn of a loop ends. -/
inductive Turn (σ β : Type) where
  | again (s : σ)
  | done (b : β)

namespace Descent

variable {τ ε α β σ : Type}

def perr (e : ε) : Descent τ ε Unit := fun s => some ((), { s with diagnostics := s.diagnostics ++ [e] })

/-- A parser that is out of turns. -/
def stuck : Descent τ ε α := fun _ => none

def loopFrom (step : σ → Descent τ ε (Turn σ β)) : ℕ → σ → Descent τ ε β
  | 0, _ => stuck
  | n + 1, s => do
    match ← step s with
    | .again s' => loopFrom step n s'
    | .done b => pure b

/-- A loop with a turn for every token that is left, and one more. -/
def loop (step : σ → Descent τ ε (Turn σ β)) (s : σ) : Descent τ ε β :=
  fun r => loopFrom step (r.toks.length + 1) s r

/-- A parser for what stands in one more block, given up where the blocks get too deep. -/
def nested (limit : ℕ) (tooDeep : Reader τ ε → ε) (stop : α) (m : Descent τ ε α) : Descent τ ε α :=
  fun s =>
    let s := { s with depth := s.depth + 1 }
    if limit < s.depth then
      some (stop, { s with diagnostics := s.diagnostics ++ [tooDeep s], depth := s.depth - 1 })
    else (m s).map fun r => (r.1, { r.2 with depth := r.2.depth - 1 })

/-- Started at `ts`, the parser ends. What it has used is a prefix of `ts`, `P` holds of it and of the
result, and if nothing new was recorded `L` holds of the used tokens, the rest and the result. -/
def Runs (m : Descent τ ε α) (ts : List τ) (P : List τ → α → Prop)
    (L : List τ → List τ → α → Prop) : Prop :=
  ∀ ds d, ∃ a used rest new, m ⟨ts, ds, d⟩ = some (a, ⟨rest, ds ++ new, d⟩) ∧ ts = used ++ rest ∧
    P used a ∧ (new = [] → L used rest a)

variable {m : Descent τ ε α} {ts : List τ} {P : List τ → α → Prop} {L : List τ → List τ → α → Prop}

theorem Runs.mono {P' : List τ → α → Prop} {L' : List τ → List τ → α → Prop} (h : Runs m ts P L)
    (hP : ∀ u a, P u a → P' u a) (hL : ∀ u r a, ts = u ++ r → L u r a → L' u r a) :
    Runs m ts P' L' := by
  intro ds d
  obtain ⟨a, u, r, new, hrun, hts, hp, hl⟩ := h ds d
  exact ⟨a, u, r, new, hrun, hts, hP _ _ hp, fun hn => hL _ _ _ hts (hl hn)⟩

theorem runs_pure {a : α} (hP : P [] a) (hL : L [] ts a) : Runs (pure a : Descent τ ε α) ts P L :=
  fun ds d => ⟨a, [], ts, [], by rw [List.append_nil]; rfl, rfl, hP, fun _ => hL⟩

/-- What comes second has what the first parser used before its own tokens. -/
theorem Runs.bind {f : α → Descent τ ε β} {Q : List τ → β → Prop} {M : List τ → List τ → β → Prop}
    (h : Runs m ts P L)
    (hf : ∀ a u r, ts = u ++ r → P u a →
      Runs (f a) r (fun u' b => Q (u ++ u') b) (fun u' r' b => L u r a → M (u ++ u') r' b)) :
    Runs (m >>= f) ts Q M := by
  intro ds d
  obtain ⟨a, u, r, new, hrun, hts, hp, hl⟩ := h ds d
  obtain ⟨b, u', r', new', hrun', hr, hq, hm⟩ := hf a u r hts hp (ds ++ new) d
  refine ⟨b, u ++ u', r', new ++ new', ?_, ?_, hq, fun hn => ?_⟩
  · simp only [Bind.bind, StateT.bind, hrun, Option.bind_some, hrun', List.append_assoc]
  · rw [hts, hr, List.append_assoc]
  · obtain ⟨hn, hn'⟩ := List.append_eq_nil_iff.mp hn
    exact hm hn' (hl hn)

/-- After an error only the end of the run matters. -/
theorem runs_perr {e : ε} {f : Unit → Descent τ ε α} (h : Runs (f ()) ts P fun _ _ _ => True) :
    Runs (perr e >>= f) ts P L := by
  intro ds d
  obtain ⟨a, u, r, new, hrun, hts, hp, -⟩ := h (ds ++ [e]) d
  refine ⟨a, u, r, e :: new, ?_, hts, hp, fun hn => nomatch hn⟩
  rw [List.append_cons]
  exact hrun

theorem runs_perr_end {e : ε} {P : List τ → Unit → Prop} {L : List τ → List τ → Unit → Prop}
    (hP : P [] ()) : Runs (perr e : Descent τ ε Unit) ts P L :=
  fun _ _ => ⟨(), [], ts, [e], rfl, rfl, hP, fun hn => nomatch hn⟩

section Loop

variable {step : σ → Descent τ ε (Turn σ β)} {T : σ → List τ → List τ → β → Prop}

/-- A turn that goes on has used a token, and what the next turns make of the rest is what this one has
to make of all of it. -/
def TurnRuns (step : σ → Descent τ ε (Turn σ β)) (T : σ → List τ → List τ → β → Prop) (s : σ)
    (ts : List τ) : Prop :=
  Runs (step s) ts (fun u r => match r with | .again _ => u ≠ [] | .done _ => True)
    fun u r x => match x with
      | .again s' => ∀ u' r' b, r = u' ++ r' → T s' u' r' b → T s (u ++ u') r' b
      | .done b => T s u r b

theorem runs_loopFrom {n : ℕ} {s : σ} (hn : ts.length < n)
    (hstep : ∀ s ts', ts'.length ≤ ts.length → TurnRuns step T s ts') :
    Runs (loopFrom step n s) ts (fun _ _ => True) (T s) := by
  induction n generalizing s ts with
  | zero => exact absurd hn (Nat.not_lt_zero _)
  | succ n ih =>
    refine Runs.bind (hstep s ts (Nat.le_refl _)) fun x u r hts hx => ?_
    cases x with
    | done b => exact runs_pure trivial fun h => by rwa [List.append_nil]
    | again s' =>
      have hlen : u.length + r.length = ts.length := by rw [hts, List.length_append]
      have hu : 0 < u.length := List.length_pos_iff.mpr hx
      exact (ih (by omega) fun s ts' hts' => hstep s ts' (by omega)).mono (fun _ _ h => h)
        fun u' r' b hr ht h => h u' r' b hr ht

theorem runs_loop {s : σ} (hstep : ∀ s ts', ts'.length ≤ ts.length → TurnRuns step T s ts') :
    Runs (loop step s) ts (fun _ _ => True) (T s) :=
  fun ds d => runs_loopFrom (Nat.lt_succ_self _) hstep ds d

end Loop

theorem runs_nested {limit : ℕ} {tooDeep : Reader τ ε → ε} {stop : α} (h : Runs m ts P L)
    (hstop : P [] stop) : Runs (nested limit tooDeep stop m) ts P L := by
  intro ds d
  unfold nested
  dsimp only
  split_ifs with hd
  · exact ⟨stop, [], ts, [_], rfl, rfl, hstop, fun hn => nomatch hn⟩
  · obtain ⟨a, u, r, new, hrun, hts, hp, hl⟩ := h ds (d + 1)
    exact ⟨a, u, r, new, by rw [hrun]; rfl, hts, hp, hl⟩

end Descent

end Kappai
