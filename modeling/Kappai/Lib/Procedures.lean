import Mathlib.Data.Nat.Notation
import Mathlib.Tactic.Common
import Mathlib.Order.Basic
import Mathlib.Data.List.Basic

/-! Procedures that end in a result or in an error, over a state that is kept either way. What a
procedure can do to the state is bounded by a relation; the rules here take it from its parts. -/

namespace Kappai

abbrev Proc (σ ε α : Type) := ExceptT ε (StateM σ) α

namespace Proc

variable {σ ε α β : Type}

/-- The outcome and the state at the end. -/
def exec (m : Proc σ ε α) (s : σ) : Except ε α × σ := StateT.run (ExceptT.run m) s

@[simp] theorem exec_pure (a : α) (s : σ) : exec (pure a : Proc σ ε α) s = (.ok a, s) := rfl

@[simp] theorem exec_throw (e : ε) (s : σ) : exec (throw e : Proc σ ε α) s = (.error e, s) := rfl

@[simp] theorem exec_get (s : σ) : exec (get : Proc σ ε σ) s = (.ok s, s) := rfl

@[simp] theorem exec_modify (f : σ → σ) (s : σ) :
    exec (modify f : Proc σ ε Unit) s = (.ok (), f s) := rfl

theorem exec_bind (m : Proc σ ε α) (f : α → Proc σ ε β) (s : σ) :
    exec (m >>= f) s =
      match exec m s with
      | (.ok a, s') => exec (f a) s'
      | (.error e, s') => (.error e, s') := by
  change (ExceptT.bindCont f (exec m s).1).run (exec m s).2 = _
  obtain ⟨_ | _, _⟩ := exec m s <;> rfl

theorem exec_bind_ok {m : Proc σ ε α} {f : α → Proc σ ε β} {s s' : σ} {a : α}
    (h : exec m s = (.ok a, s')) : exec (m >>= f) s = exec (f a) s' := by
  rw [exec_bind, h]

theorem exec_bind_error {m : Proc σ ε α} {f : α → Proc σ ε β} {s s' : σ} {e : ε}
    (h : exec m s = (.error e, s')) : exec (m >>= f) s = (.error e, s') := by
  rw [exec_bind, h]

/-- The outcome in place of a failure: `m` itself always ends in a result. -/
def outcome (m : Proc σ ε α) : Proc σ ε (Except ε α) :=
  ExceptT.mk (do return .ok (← ExceptT.run m))

@[simp] theorem exec_outcome (m : Proc σ ε α) (s : σ) :
    exec (outcome m) s = (.ok (exec m s).1, (exec m s).2) := rfl

/-- A bound on what happens to the state. -/
structure Bound (σ : Type) where
  rel : σ → σ → Prop
  refl : ∀ s, rel s s
  trans : ∀ {s t u}, rel s t → rel t u → rel s u

/-- An invariant as a bound. -/
def Bound.keeps (I : σ → Prop) : Bound σ := ⟨fun s s' => I s → I s', fun _ h => h, fun h h' hs => h' (h hs)⟩

/-- A part of the state that does not change. -/
def Bound.fixes {τ : Type} (f : σ → τ) : Bound σ := ⟨fun s s' => f s' = f s, fun _ => rfl, fun h h' => h'.trans h⟩

/-- Started in this state it stays within the bound, whatever the outcome. -/
def Within (B : Bound σ) (m : Proc σ ε α) (s : σ) : Prop := B.rel s (exec m s).2

/-- If it ends in a result, the state is one of these. -/
def Ends (P : σ → Prop) (m : Proc σ ε α) (s : σ) : Prop := ∀ a s', exec m s = (.ok a, s') → P s'

variable {B : Bound σ} {P : σ → Prop} {s s' : σ}

namespace Within

theorem ok {m : Proc σ ε α} {a : α} (h : Within B m s) (hm : exec m s = (.ok a, s')) : B.rel s s' := by
  rwa [Within, hm] at h

theorem mono {B' : Bound σ} (hB : ∀ s s', B.rel s s' → B'.rel s s') {m : Proc σ ε α}
    (h : Within B m s) : Within B' m s := hB _ _ h

theorem pure (a : α) : Within B (Pure.pure a : Proc σ ε α) s := B.refl s

theorem throw (e : ε) : Within B (throw e : Proc σ ε α) s := B.refl s

theorem update {f : σ → σ} (h : B.rel s (f s)) : Within B (modify f : Proc σ ε Unit) s := h

/-- What follows starts in a state that the first part ends in. -/
theorem bind {m : Proc σ ε α} {f : α → Proc σ ε β} (hm : Within B m s)
    (hf : ∀ a s', exec m s = (.ok a, s') → Within B (f a) s') : Within B (m >>= f) s := by
  rw [Within, exec_bind]
  rcases hr : exec m s with ⟨out, s'⟩
  rw [Within, hr] at hm
  cases out with
  | ok a => exact B.trans hm (hf a s' hr)
  | error e => exact hm

theorem bind_get {f : σ → Proc σ ε α} (hf : Within B (f s) s) :
    Within B (MonadState.get >>= f) s := hf

theorem bind_update {f : σ → σ} {k : Unit → Proc σ ε α} (h : B.rel s (f s))
    (hk : Within B (k ()) (f s)) : Within B (modify f >>= k) s := B.trans h hk

theorem ite {c : Prop} [Decidable c] {m n : Proc σ ε α} (hm : c → Within B m s)
    (hn : ¬ c → Within B n s) : Within B (if c then m else n) s := by
  split_ifs with h
  · exact hm h
  · exact hn h

/-- A part that is left out under a condition. -/
theorem when {c : Prop} [Decidable c] {m : Proc σ ε Unit} {k : Unit → Proc σ ε α}
    (hm : c → Within B m s) (hk : ∀ s', (c → exec m s = (.ok (), s')) → (¬ c → s' = s) →
      Within B (k ()) s') : Within B (if c then m >>= k else k ()) s := by
  split_ifs with h
  · exact bind (hm h) fun _ s' hs' => hk s' (fun _ => hs') fun hno => absurd h hno
  · exact hk s (fun hc => absurd hc h) fun _ => rfl

theorem outcome {m : Proc σ ε α} (hm : Within B m s) : Within B (outcome m) s := hm

theorem forM {l : List β} {f : β → Proc σ ε PUnit} (hf : ∀ b ∈ l, ∀ s, Within B (f b) s) :
    Within B (l.forM f) s := by
  induction l generalizing s with
  | nil => exact Within.pure _
  | cons b l ih =>
    change Within B (f b >>= fun _ => l.forM f) s
    exact Within.bind (hf b List.mem_cons_self s) fun _ s' _ =>
      ih fun b' hb' => hf b' (List.mem_cons_of_mem _ hb')

end Within

namespace Ends

theorem of_keeps {m : Proc σ ε α} (h : P s) (hm : Within (.keeps P) m s) : Ends P m s :=
  fun _ _ hs' => hm.ok hs' h

theorem pure (h : P s) (a : α) : Ends P (Pure.pure a : Proc σ ε α) s := of_keeps h (Within.pure a)

theorem throw (e : ε) : Ends P (throw e : Proc σ ε α) s := fun _ _ h => by cases h

theorem bind {m : Proc σ ε α} {f : α → Proc σ ε β}
    (hf : ∀ a s', exec m s = (.ok a, s') → Ends P (f a) s') : Ends P (m >>= f) s := by
  intro b s'' h
  rw [exec_bind] at h
  rcases hr : exec m s with ⟨out, s'⟩
  rw [hr] at h
  cases out with
  | ok a => exact hf a s' hr b s'' h
  | error e => cases h

/-- The first part keeps what holds at the start. -/
theorem bind_keeps {I : σ → Prop} {m : Proc σ ε α} {f : α → Proc σ ε β} (h : I s)
    (hm : Within (.keeps I) m s) (hf : ∀ a s', I s' → Ends P (f a) s') : Ends P (m >>= f) s :=
  bind fun a s' hs' => hf a s' (hm.ok hs' h)

theorem ite {c : Prop} [Decidable c] {m n : Proc σ ε α} (hm : c → Ends P m s)
    (hn : ¬ c → Ends P n s) : Ends P (if c then m else n) s := by
  split_ifs with h
  · exact hm h
  · exact hn h

theorem when {c : Prop} [Decidable c] {m : Proc σ ε Unit} {k : Unit → Proc σ ε α}
    (hk : ∀ s', Ends P (k ()) s') : Ends P (if c then m >>= k else k ()) s :=
  ite (fun _ => bind fun _ s' _ => hk s') fun _ => hk s

end Ends

/-- Started in this state it ends in a result with `P`, or fails in a state with `E`. -/
def Post (E : σ → Prop) (P : α → σ → Prop) (m : Proc σ ε α) (s : σ) : Prop :=
  (∀ a s', exec m s = (.ok a, s') → P a s') ∧ ∀ e s', exec m s = (.error e, s') → E s'

namespace Post

variable {E E' : σ → Prop} {P' : α → σ → Prop} {Q : α → σ → Prop} {R : β → σ → Prop}

theorem mono {m : Proc σ ε α} (h : Post E Q m s) (hE : ∀ s', E s' → E' s')
    (hP : ∀ a s', Q a s' → P' a s') : Post E' P' m s :=
  ⟨fun a s' hs' => hP a s' (h.1 a s' hs'), fun e s' hs' => hE s' (h.2 e s' hs')⟩

theorem pure {a : α} (h : Q a s) : Post E Q (Pure.pure a : Proc σ ε α) s :=
  ⟨fun _ _ hs' => by cases hs'; exact h, fun _ _ hs' => by cases hs'⟩

theorem throw {e : ε} (h : E s) : Post E Q (throw e : Proc σ ε α) s :=
  ⟨fun _ _ hs' => (by cases hs'), fun _ _ hs' => by cases hs'; exact h⟩

theorem update {f : σ → σ} {U : Unit → σ → Prop} (h : U () (f s)) :
    Post E U (modify f : Proc σ ε Unit) s :=
  ⟨fun _ _ hs' => by cases hs'; exact h, fun _ _ hs' => by cases hs'⟩

theorem bind {m : Proc σ ε α} {f : α → Proc σ ε β} (hm : Post E Q m s)
    (hf : ∀ a s', Q a s' → Post E R (f a) s') : Post E R (m >>= f) s := by
  rw [Post, exec_bind]
  rcases hr : exec m s with ⟨out, s'⟩
  cases out with
  | ok a => exact hf a s' (hm.1 a s' hr)
  | error e => exact ⟨fun _ _ h => (by cases h), fun _ _ h => by cases h; exact hm.2 e s' hr⟩

theorem bind_get {f : σ → Proc σ ε β} (hf : Post E R (f s) s) : Post E R (MonadState.get >>= f) s := hf

theorem bind_update {f : σ → σ} {k : Unit → Proc σ ε β} (hk : Post E R (k ()) (f s)) :
    Post E R (modify f >>= k) s := hk

theorem ite {c : Prop} [Decidable c] {m n : Proc σ ε α} (hm : c → Post E Q m s)
    (hn : ¬ c → Post E Q n s) : Post E Q (if c then m else n) s := by
  split_ifs with h
  · exact hm h
  · exact hn h

theorem when {c : Prop} [Decidable c] {m : Proc σ ε Unit} {k : Unit → Proc σ ε β} {I : σ → Prop}
    (hm : c → Post E (fun _ => I) m s) (hs : ¬ c → I s) (hk : ∀ s', I s' → Post E R (k ()) s') :
    Post E R (if c then m >>= k else k ()) s :=
  ite (fun h => bind (hm h) fun _ s' => hk s') fun h => hk s (hs h)

/-- A guard that fails. -/
theorem guard {c : Prop} [Decidable c] {e : ε} {k : Unit → Proc σ ε β} (hE : c → E s)
    (hk : ¬ c → Post E R (k ()) s) :
    Post E R (if c then (MonadExcept.throw e : Proc σ ε Unit) >>= k else k ()) s :=
  ite (fun h => bind (Q := fun _ _ => False) (throw (hE h)) fun _ _ hf => hf.elim) hk

theorem outcome {m : Proc σ ε α} {O : Except ε α → σ → Prop} (h : Post E Q m s)
    (hok : ∀ a s', Q a s' → O (.ok a) s') (herr : ∀ e s', E s' → O (.error e) s') :
    Post E' O (outcome m) s := by
  rw [Post, exec_outcome]
  refine ⟨fun r s' hr => ?_, fun _ _ hr => by cases hr⟩
  rcases hm : exec m s with ⟨out, s''⟩
  rw [hm] at hr
  cases hr
  cases out with
  | ok a => exact hok a _ (h.1 a _ hm)
  | error e => exact herr e _ (h.2 e _ hm)

/-- A loop that keeps `I`: what a turn brings about stays. -/
theorem forM {l : List β} {f : β → Proc σ ε PUnit} {I : σ → Prop} {T : β → σ → Prop} (h : I s)
    (hf : ∀ b ∈ l, ∀ s, I s → Post E (fun _ s' => I s' ∧ T b s' ∧ ∀ b', T b' s → T b' s') (f b) s) :
    Post E (fun _ s' => I s' ∧ ∀ b ∈ l, T b s') (l.forM f) s := by
  have hloop : ∀ l' ⊆ l, ∀ done : List β, ∀ s, I s → (∀ b ∈ done, T b s) →
      Post E (fun _ s' => I s' ∧ (∀ b ∈ done, T b s') ∧ ∀ b ∈ l', T b s') (l'.forM f) s := by
    intro l'
    induction l' with
    | nil => exact fun _ done s hs hdone => pure ⟨hs, hdone, fun _ hb => absurd hb List.not_mem_nil⟩
    | cons b l' ih =>
      intro hsub done s hs hdone
      change Post E _ (f b >>= fun _ => l'.forM f) s
      refine bind (hf b (hsub List.mem_cons_self) s hs) fun _ s' ⟨hs', hb, hstays⟩ => ?_
      refine (ih (fun _ hb' => hsub (List.mem_cons_of_mem _ hb')) (b :: done) s' hs' ?_).mono
        (fun _ hE => hE) fun _ s'' ⟨hs'', hdone', hrest⟩ => ⟨hs'', ?_, ?_⟩
      · intro b' hb'
        rcases List.mem_cons.1 hb' with rfl | hb'
        · exact hb
        · exact hstays b' (hdone b' hb')
      · exact fun b' hb' => hdone' b' (List.mem_cons_of_mem _ hb')
      · intro b' hb'
        rcases List.mem_cons.1 hb' with rfl | hb'
        · exact hdone' b' List.mem_cons_self
        · exact hrest b' hb'
  exact (hloop l (fun _ hb => hb) [] s h fun _ hb => absurd hb List.not_mem_nil).mono (fun _ hE => hE)
    fun _ _ ⟨hs', _, hall⟩ => ⟨hs', hall⟩

end Post

end Proc

end Kappai

/-! Computations over a state that only rises in a preorder. The rise is part of the type, so a
program written with them has it without a proof of its own. -/

namespace Kappai

/-- A computation that may be cut off, with the state it was in then. -/
structure Rising (σ : Type) [Preorder σ] (α : Type) where
  run : σ → Option α × σ
  le : ∀ s, s ≤ (run s).2

namespace Rising

variable {σ α β : Type} [Preorder σ]

def stuck : Rising σ α := ⟨fun s => (none, s), le_refl⟩

/-- What `f` makes of a result, from the state that came with it. -/
def resume (f : α → Rising σ β) : Option α × σ → Option β × σ
  | (some a, s) => (f a).run s
  | (none, s) => (none, s)

theorem le_resume (f : α → Rising σ β) (r : Option α × σ) : r.2 ≤ (resume f r).2 := by
  obtain ⟨_ | a, s⟩ := r
  · exact le_refl s
  · exact (f a).le s

instance : Monad (Rising σ) where
  pure a := ⟨fun s => (some a, s), le_refl⟩
  bind m f := ⟨fun s => resume f (m.run s), fun s => (m.le s).trans (le_resume f (m.run s))⟩

/-- Reading the state. -/
def look (g : σ → α) : Rising σ α := ⟨fun s => (some (g s), s), le_refl⟩

/-- A change of the state, which rises by it. -/
def update (g : σ → σ) (h : ∀ s, s ≤ g s) : Rising σ Unit := ⟨fun s => (some (), g s), h⟩

/-- What must not be missing. -/
def ofOption : Option α → Rising σ α
  | some a => pure a
  | none => stuck

end Rising

/-! A state with a record of moments, each of them seen before everything that comes later. -/

section History

variable {σ μ : Type} [Preorder μ] (now : σ → μ) (past : σ → List μ)

/-- The record goes on from `s` to `s'`, and no moment from the one of `s` to the one of `s'` is above
a later one. -/
def Traced (s s' : σ) : Prop :=
  ∃ new, past s' = past s ++ new ∧ (now s :: new ++ [now s']).Pairwise (· ≤ ·)

variable {now past}

theorem traced_of_le {s s' : σ} (hp : past s' = past s) (h : now s ≤ now s') :
    Traced now past s s' :=
  ⟨[], by rw [hp, List.append_nil], by simpa using h⟩

theorem Traced.refl (s : σ) : Traced now past s s := traced_of_le rfl le_rfl

theorem Traced.trans {s s' s'' : σ} (h : Traced now past s s') (h' : Traced now past s' s'') :
    Traced now past s s'' := by
  obtain ⟨new, hp, hw⟩ := h
  obtain ⟨new', hp', hw'⟩ := h'
  obtain ⟨hl, -, hs⟩ := List.pairwise_append.1 hw
  obtain ⟨hs', hl'⟩ := List.pairwise_cons.1 hw'
  refine ⟨new ++ new', by rw [hp', hp, List.append_assoc], ?_⟩
  rw [← List.cons_append, List.append_assoc]
  -- a moment of the first part is below the state in the middle, and that below the second part
  exact List.pairwise_append.2
    ⟨hl, hl', fun p h q h' => (hs p h (now s') (by simp)).trans (hs' q h')⟩

/-- Putting the present moment on record. -/
theorem traced_record {s s' : σ} (hp : past s' = past s ++ [now s]) (hn : now s' = now s) :
    Traced now past s s' :=
  ⟨[now s], hp, by simp [hn]⟩

/-- The record of a run from an empty one, its last state included. -/
theorem Traced.pairwise {s s' : σ} (h : Traced now past s s') (hs : past s = []) :
    (past s' ++ [now s']).Pairwise (· ≤ ·) := by
  obtain ⟨new, hp, hw⟩ := h
  rw [hp, hs, List.nil_append]
  exact (List.pairwise_cons.1 hw).2

end History

end Kappai
