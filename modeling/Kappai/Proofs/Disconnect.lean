import Kappai.Lib.Loop
import Kappai.Spec.Disconnect

/-! A disconnect interrupts the generation it is about and no other one, as long as no slot is
released while a disconnect of its request is still to be written. -/

namespace Kappai

variable {ρ σ : Type*}

namespace Serving

/-- The statements before `sctx` is set. -/
def unbound : TaskStmt → Bool
  | .bind | .decisionClear | .decisionBind => true
  | _ => false

/-- The statements from the clearing of `interrupt` to the end of the generation. -/
def cleared : TaskStmt → Bool
  | .generate | .decisionBind | .decisionCheck | .decide => true
  | _ => false

/-- Where the requests and the tasks are. A request that has been bound to a slot is there or
over; over means that no disconnect of it is pending or will be. -/
structure Orderly (w : Serving ρ σ) : Prop where
  pushed : ∀ r, (w.gens r).queued → (w.gens r).arrived
  early : ∀ r, ((w.gens r).queued ∨ (w.gens r).arrived = false) →
    (w.gens r).sctx = none ∧ ∀ s stmt, (w.slots s).task ≠ some (r, stmt)
  bound : ∀ s r stmt, (w.slots s).task = some (r, stmt) →
    (w.gens r).sctx = if unbound stmt then none else some s
  once : ∀ s s' r stmt stmt', (w.slots s).task = some (r, stmt) →
    (w.slots s').task = some (r, stmt') → s = s'
  done : ∀ s r, (w.slots s).task = some (r, .release) → (w.gens r).generationDone
  held : ∀ r s, (w.gens r).sctx = some s → (∃ stmt, (w.slots s).task = some (r, stmt)) ∨
    (w.gens r).generationDone ∧ (w.gens r).marking = 0
  own : ∀ s r stmt q, (w.slots s).task = some (r, stmt) → cleared stmt →
    (w.slots s).interrupt = some (.client q) → q = r

theorem init_orderly : (init : Serving ρ σ).Orderly := by
  constructor <;> simp [init]

/-- The task of a slot does not release it while a disconnect of its request is to be written. -/
def releasesMarked (w : Serving ρ σ) : ServingAct ρ σ → Bool
  | .work s =>
    match (w.slots s).task with
    | some (r, .release) => (w.gens r).marking = 0
    | _ => true
  | _ => true

section Update

variable (w : Serving ρ σ)

theorem setGen_gens [DecidableEq ρ] (r r' : ρ) (g : OaGen σ) :
    (w.setGen r g).gens r' = if r' = r then g else w.gens r' := Function.update_apply ..

theorem setGen_self [DecidableEq ρ] (r : ρ) : w.setGen r (w.gens r) = w := by
  rw [setGen, Function.update_eq_self]

theorem setSlot_slots [DecidableEq σ] (s s' : σ) (t : SlotRun ρ) :
    (w.setSlot s t).slots s' = if s' = s then t else w.slots s' := Function.update_apply ..

end Update

variable [DecidableEq ρ] {w : Serving ρ σ}

/-- A request changes that is not given another slot. -/
theorem Orderly.setGen (h : w.Orderly) {r : ρ} {g : OaGen σ} (hctx : g.sctx = (w.gens r).sctx)
    (hpushed : g.queued → g.arrived)
    (hearly : g.queued ∨ g.arrived = false → (w.gens r).queued ∨ (w.gens r).arrived = false)
    (hdone : (w.gens r).generationDone → g.generationDone)
    (hmark : (w.gens r).generationDone → (w.gens r).marking = 0 → g.marking = 0) :
    (w.setGen r g).Orderly := by
  refine ⟨fun q => ?_, fun q => ?_, fun s q stmt ht => ?_, h.once, fun s q ht => ?_,
    fun q s hs => ?_, h.own⟩
  · rw [setGen_gens]
    split_ifs
    · exact hpushed
    · exact h.pushed q
  · rw [setGen_gens]
    split_ifs with hq
    · subst hq
      rw [hctx]
      exact fun hg => h.early q (hearly hg)
    · exact h.early q
  · rw [setGen_gens, ← h.bound s q stmt ht]
    split_ifs with hq
    · rw [hctx, hq]
    · rfl
  · have hd := h.done s q ht
    rw [setGen_gens]
    split_ifs with hq
    · exact hdone (hq ▸ hd)
    · exact hd
  · rw [setGen_gens] at hs ⊢
    split_ifs at hs ⊢ with hq
    · subst hq
      rw [hctx] at hs
      exact (h.held q s hs).imp_right fun ⟨hd, hm⟩ => ⟨hdone hd, hmark hd hm⟩
    · exact h.held q s hs

variable [DecidableEq σ]

/-- A slot has a task of `r` afterwards, where no other slot had one of `r` and the slot none of
another request. -/
theorem Orderly.setTask (h : w.Orderly) {s : σ} {r : ρ} {g : OaGen σ} {t : SlotRun ρ}
    {stmt : TaskStmt} (hslot : ∀ q stmt', (w.slots s).task = some (q, stmt') → q = r)
    (honce : ∀ s' stmt', (w.slots s').task = some (r, stmt') → s' = s)
    (ht : t.task = some (r, stmt)) (hqueued : g.queued = false) (harrived : g.arrived = true)
    (hctx : g.sctx = if unbound stmt then none else some s)
    (hdone : stmt = .release → g.generationDone)
    (hown : cleared stmt → ∀ q, t.interrupt = some (.client q) → q = r) :
    ((w.setGen r g).setSlot s t).Orderly := by
  have hgens : ∀ q, ((w.setGen r g).setSlot s t).gens q = if q = r then g else w.gens q :=
    fun q => setGen_gens ..
  have hslots : ∀ s', ((w.setGen r g).setSlot s t).slots s' = if s' = s then t else w.slots s' :=
    fun s' => setSlot_slots ..
  -- a task is the new one, or it is an old one of another request on another slot
  have htasks : ∀ {s' q stmt'}, (((w.setGen r g).setSlot s t).slots s').task = some (q, stmt') →
      s' = s ∧ q = r ∧ stmt' = stmt ∨ s' ≠ s ∧ q ≠ r ∧ (w.slots s').task = some (q, stmt') := by
    intro s' q stmt' hq
    rw [hslots] at hq
    split_ifs at hq with heq
    · cases ht.symm.trans hq
      exact Or.inl ⟨heq, rfl, rfl⟩
    · refine Or.inr ⟨heq, ?_, hq⟩
      rintro rfl
      exact heq (honce s' stmt' hq)
  refine ⟨fun q => ?_, fun q => ?_, fun s₁ q stmt₁ ht₁ => ?_, fun s₁ s₂ q _ _ ht₁ ht₂ => ?_,
    fun s₁ q ht₁ => ?_, fun q s₁ hs₁ => ?_, fun s₁ q stmt₁ q' ht₁ hc hq' => ?_⟩
  · rw [hgens]
    split_ifs
    · exact fun _ => harrived
    · exact h.pushed q
  · rw [hgens]
    split_ifs with hq
    · rw [hqueued, harrived]
      exact fun hr => by simp at hr
    · refine fun hr => ⟨(h.early q hr).1, fun s₁ stmt₁ ht₁ => ?_⟩
      rcases htasks ht₁ with ⟨-, heq, -⟩ | ⟨-, -, ht₁⟩
      · exact hq heq
      · exact (h.early q hr).2 s₁ stmt₁ ht₁
  · rw [hgens]
    rcases htasks ht₁ with ⟨rfl, rfl, rfl⟩ | ⟨-, hne, ht₁⟩
    · rw [if_pos rfl, hctx]
    · rw [if_neg hne]
      exact h.bound s₁ q stmt₁ ht₁
  · rcases htasks ht₁ with ⟨rfl, rfl, -⟩ | ⟨-, hne, ht₁⟩
    · rcases htasks ht₂ with ⟨rfl, -, -⟩ | ⟨-, hne, -⟩
      · rfl
      · exact absurd rfl hne
    · rcases htasks ht₂ with ⟨-, heq, -⟩ | ⟨-, -, ht₂⟩
      · exact absurd heq hne
      · exact h.once s₁ s₂ q _ _ ht₁ ht₂
  · rw [hgens]
    rcases htasks ht₁ with ⟨-, hq, hstmt⟩ | ⟨-, hne, ht₁⟩
    · rw [if_pos hq]
      exact hdone hstmt.symm
    · rw [if_neg hne]
      exact h.done s₁ q ht₁
  · rw [hgens] at hs₁ ⊢
    split_ifs at hs₁ ⊢ with hq
    · rw [hctx] at hs₁
      split_ifs at hs₁
      cases hs₁
      exact Or.inl ⟨stmt, by rw [hslots, if_pos rfl, ht, hq]⟩
    · refine (h.held q s₁ hs₁).imp_left fun ⟨stmt₁, ht₁⟩ => ⟨stmt₁, ?_⟩
      rw [hslots, if_neg, ht₁]
      rintro rfl
      exact hq (hslot q stmt₁ ht₁)
  · rw [hslots] at hq'
    rcases htasks ht₁ with ⟨heq, hq, hstmt⟩ | ⟨hne, -, ht₁⟩
    · rw [if_pos heq] at hq'
      exact (hown (hstmt ▸ hc) q' hq').trans hq.symm
    · rw [if_neg hne] at hq'
      exact h.own s₁ q stmt₁ q' ht₁ hc hq'

/-- The task of a slot goes on. -/
theorem Orderly.next (h : w.Orderly) {s : σ} {r : ρ} {stmt stmt' : TaskStmt}
    (htask : (w.slots s).task = some (r, stmt)) {g : OaGen σ} {t : SlotRun ρ}
    (hqueued : g.queued = (w.gens r).queued) (harrived : g.arrived = (w.gens r).arrived)
    (ht : t.task = some (r, stmt')) (hctx : g.sctx = if unbound stmt' then none else some s)
    (hdone : stmt' = .release → g.generationDone)
    (hown : cleared stmt' → ∀ q, t.interrupt = some (.client q) → q = r) :
    ((w.setGen r g).setSlot s t).Orderly := by
  have hearly : ¬ ((w.gens r).queued = true ∨ (w.gens r).arrived = false) :=
    fun hr => (h.early r hr).2 s stmt htask
  simp only [not_or, Bool.not_eq_true, Bool.not_eq_false] at hearly
  refine h.setTask (fun q stmt₁ ht₁ => ?_) (fun s' stmt₁ ht₁ => h.once s' s r _ _ ht₁ htask) ht
    (hqueued.trans hearly.1) (harrived.trans hearly.2) hctx hdone hown
  cases htask.symm.trans ht₁
  rfl

/-- The request of the task stays as it is. -/
theorem Orderly.nextSlot (h : w.Orderly) {s : σ} {r : ρ} {stmt stmt' : TaskStmt}
    (htask : (w.slots s).task = some (r, stmt)) {t : SlotRun ρ} (ht : t.task = some (r, stmt'))
    (hbind : unbound stmt' = unbound stmt) (hdone : stmt' = .release → (w.gens r).generationDone)
    (hown : cleared stmt' → ∀ q, t.interrupt = some (.client q) → q = r) :
    (w.setSlot s t).Orderly := by
  have hnext := h.next htask rfl rfl ht
    (by rw [hbind]; exact h.bound s r stmt htask) hdone hown
  rwa [setGen_self] at hnext

/-- A write to the flag of a running task, on behalf of no other request. -/
theorem Orderly.setInterrupt (h : w.Orderly) {s : σ} {r : ρ} {stmt : TaskStmt}
    (htask : (w.slots s).task = some (r, stmt)) {i : Option (Writer ρ)}
    (hi : ∀ q, i = some (.client q) → q = r) :
    (w.setSlot s { w.slots s with interrupt := i }).Orderly := by
  refine h.nextSlot htask htask rfl (fun hstmt => ?_) fun _ => hi
  exact h.done s r (hstmt ▸ htask)

/-- `task_start` -/
theorem pick_orderly (h : w.Orderly) {s : σ} {r : ρ} (hqueued : (w.gens r).queued = true)
    (hidle : (w.slots s).task = none) :
    ((w.setGen r { w.gens r with queued := false }).setSlot s
      { w.slots s with task := some (r, (w.gens r).firstStmt) }).Orderly := by
  obtain ⟨hctx, hnone⟩ := h.early r (Or.inl hqueued)
  have hfirst : unbound (w.gens r).firstStmt = true ∧ cleared (w.gens r).firstStmt = false ∧
      (w.gens r).firstStmt ≠ .release := by
    unfold OaGen.firstStmt
    split_ifs <;> simp [unbound, cleared]
  obtain ⟨hunbound, hcleared, hrelease⟩ := hfirst
  refine h.setTask (fun q stmt ht => ?_) (fun s' stmt ht => absurd ht (hnone s' stmt)) rfl rfl
    (h.pushed r hqueued) ?_ (fun hr => absurd hr hrelease) fun hc => ?_
  · rw [hidle] at ht
    cases ht
  · rw [if_pos hunbound]
    exact hctx
  · rw [hcleared] at hc
    cases hc

/-- `busy = false`, of a task whose request is over. -/
theorem release_orderly (h : w.Orderly) {s : σ} {r : ρ}
    (htask : (w.slots s).task = some (r, .release)) (hmark : (w.gens r).marking = 0) :
    (w.exec s r .release).Orderly := by
  -- the tasks of the other slots stay
  have htasks : ∀ {s₁ q stmt}, ((w.exec s r .release).slots s₁).task = some (q, stmt) →
      s₁ ≠ s ∧ (w.slots s₁).task = some (q, stmt) := by
    intro s₁ q stmt hq
    rw [exec, setSlot_slots] at hq
    split_ifs at hq with heq
    exact ⟨heq, hq⟩
  refine ⟨h.pushed, fun q hq => ⟨(h.early q hq).1, fun s₁ stmt ht => ?_⟩,
    fun s₁ q stmt ht => h.bound s₁ q stmt (htasks ht).2,
    fun s₁ s₂ q _ _ ht₁ ht₂ => h.once s₁ s₂ q _ _ (htasks ht₁).2 (htasks ht₂).2,
    fun s₁ q ht => h.done s₁ q (htasks ht).2, fun q s₁ hs₁ => ?_,
    fun s₁ q stmt q' ht hc hq' => ?_⟩
  · exact (h.early q hq).2 s₁ stmt (htasks ht).2
  · rcases h.held q s₁ hs₁ with ⟨stmt, ht⟩ | hover
    · by_cases heq : s₁ = s
      · subst heq
        cases htask.symm.trans ht
        exact Or.inr ⟨h.done s₁ r htask, hmark⟩
      · exact Or.inl ⟨stmt, by rw [exec, setSlot_slots, if_neg heq, ht]⟩
    · exact Or.inr hover
  · obtain ⟨hne, ht⟩ := htasks ht
    rw [exec, setSlot_slots, if_neg hne] at hq'
    exact h.own s₁ q stmt q' ht hc hq'

theorem exec_orderly (h : w.Orderly) {s : σ} {r : ρ} {stmt : TaskStmt}
    (htask : (w.slots s).task = some (r, stmt))
    (hok : stmt = .release → (w.gens r).marking = 0) : (w.exec s r stmt).Orderly := by
  have hctx := h.bound s r stmt htask
  have hown := h.own s r stmt
  cases stmt with
  | bind => exact h.next htask rfl rfl rfl rfl (by simp) (by simp [cleared])
  | check =>
    unfold exec
    refine h.nextSlot htask rfl ?_ ?_ ?_ <;> split_ifs <;> simp [unbound, cleared]
  | reopen => exact h.next htask rfl rfl rfl hctx (by simp) (by simp [cleared])
  | clear => exact h.nextSlot htask rfl rfl (by simp) (by simp)
  | generate => exact h.nextSlot htask rfl rfl (by simp) (by simp [cleared])
  | settle => exact h.nextSlot htask rfl rfl (by simp) (by simp)
  | decisionClear => exact h.nextSlot htask rfl rfl (by simp) (by simp)
  | decisionBind =>
    exact h.next htask rfl rfl rfl rfl (by simp) fun _ q hq => hown q htask rfl hq
  | decisionCheck =>
    unfold exec
    refine h.nextSlot htask rfl ?_ ?_ fun _ q hq => hown q htask rfl hq <;> split_ifs <;>
      simp [unbound]
  | decide => exact h.nextSlot htask rfl rfl (by simp) (by simp [cleared])
  | finish => exact h.next htask rfl rfl rfl hctx (fun _ => rfl) (by simp [cleared])
  | release => exact release_orderly h htask (hok rfl)

/-- A write on behalf of a request hits the slot that still runs it. -/
theorem writeInterrupt_orderly (h : w.Orderly) (r : ρ) :
    (w.apply (.writeInterrupt r)).Orderly := by
  unfold apply
  dsimp only
  split_ifs with hmark
  · have hgen := h.setGen (r := r) (g := { w.gens r with marking := (w.gens r).marking - 1 }) rfl
      (h.pushed r) id id fun _ hm => by omega
    split
    · next s hctx =>
      obtain ⟨stmt, htask⟩ := (h.held r s hctx).resolve_right fun hover => by omega
      refine hgen.setInterrupt htask fun q hq => ?_
      cases hq
      rfl
    · exact hgen
  · exact h

theorem apply_orderly (h : w.Orderly) (act : ServingAct ρ σ)
    (hok : w.releasesMarked act = true) : (w.apply act).Orderly := by
  cases act with
  | work s =>
    unfold releasesMarked at hok
    unfold apply
    cases htask : (w.slots s).task with
    | none => simpa only [htask] using h
    | some t =>
      obtain ⟨r, stmt⟩ := t
      simp only [htask] at hok ⊢
      refine exec_orderly h htask ?_
      rintro rfl
      simpa using hok
  | writeInterrupt r => exact writeInterrupt_orderly h r
  | pick r s =>
    unfold apply
    dsimp only
    split_ifs with hpick
    · simp only [Bool.and_eq_true, Option.isNone_iff_eq_none] at hpick
      exact pick_orderly h hpick.1 hpick.2
    · exact h
  | arrive r decision =>
    unfold apply
    dsimp only
    split_ifs with harrived
    · exact h
    · exact h.setGen rfl (fun _ => rfl) (fun _ => Or.inr (by simpa using harrived)) id
        fun _ hm => hm
  | fail r =>
    unfold apply
    dsimp only
    split_ifs with hqueued
    · exact h.setGen rfl (by simp) (fun hr => hr.imp_left (by simp)) (fun _ => rfl)
        fun _ hm => hm
    · exact h
  | markGone r =>
    unfold apply
    dsimp only
    by_cases harrived : (w.gens r).arrived = true
    · rw [if_pos harrived]
      -- a request that is over is not marked again
      exact h.setGen rfl (h.pushed r) id id fun hd hm => by simp [hd, hm]
    · rw [if_neg harrived]
      exact h
  | callback s =>
    unfold apply
    dsimp only
    split
    · next r htask =>
      exact h.setInterrupt htask fun q hq => by cases hq
    · exact h
  | clearAgain s =>
    unfold apply
    dsimp only
    split
    · next r stmt htask =>
      split_ifs with hlooks
      · exact h.setInterrupt htask fun q hq => by cases hq
      · exact h
    · exact h
  | interruptTask s =>
    unfold apply
    dsimp only
    split_ifs with hrun
    · obtain ⟨⟨r, stmt⟩, htask⟩ := Option.isSome_iff_exists.1 (Bool.and_eq_true_iff.1 hrun).2
      exact h.setInterrupt htask fun q hq => by cases hq
    · exact h
  | shutdown => exact ⟨h.pushed, h.early, h.bound, h.once, h.done, h.held, h.own⟩

/-- In every run that releases no slot while a disconnect of its request is pending, a write for
a request finds its slot still running it, and an interrupt that a generation sees comes from no
other request's disconnect. -/
theorem disconnect_interrupts_own (acts : List (ServingAct ρ σ))
    (hrun : SafeRun apply (fun w act => w.releasesMarked act = true) init acts) :
    let w := acts.foldl apply (init : Serving ρ σ)
    (∀ r s, 0 < (w.gens r).marking → (w.gens r).sctx = some s →
      ∃ stmt, (w.slots s).task = some (r, stmt)) ∧
    ∀ s r stmt q, (w.slots s).task = some (r, stmt) → stmt.looks →
      (w.slots s).interrupt = some (.client q) → q = r := by
  have h : (acts.foldl apply (init : Serving ρ σ)).Orderly :=
    SafeRun.inv (I := Orderly) (fun w act hw hok => apply_orderly hw act hok) init_orderly hrun
  refine ⟨fun r s hmark hs => (h.held r s hs).resolve_right fun hover => ?_,
    fun s r stmt q htask hlooks => h.own s r stmt q htask ?_⟩
  · have := hover.2
    omega
  · cases stmt <;> first | rfl | cases hlooks

/-- Request `true` runs on the only slot, and its client disconnects while it generates. -/
def disconnected : List (ServingAct Bool Unit) :=
  [.arrive true false, .arrive false false, .pick true (), .work (), .work (), .work (), .work (),
    .markGone true]

/-- The task of the slot comes to its end, and the other request to its generation. -/
def handedOver : List (ServingAct Bool Unit) :=
  [.work (), .work (), .work (), .work (), .pick false (), .work (), .work (), .work (), .work ()]

theorem disconnect_interrupts_own_written :
    (∃ stmt, ((disconnected.foldl apply init).slots ()).task = some (true, stmt)) ∧
      ∃ q, (((disconnected ++ [ServingAct.writeInterrupt true]).foldl apply init).slots
        ()).interrupt = some (.client q) ∧ q = true :=
  ⟨(disconnect_interrupts_own disconnected (by decide)).1 true () (by decide) (by decide),
    true, by decide,
    (disconnect_interrupts_own (disconnected ++ [ServingAct.writeInterrupt true])
      (by decide)).2 () true .generate true (by decide) rfl (by decide)⟩

/-- The write comes after the slot was handed over, and interrupts the other request. -/
theorem disconnect_interrupts_other :
    ((disconnected ++ handedOver ++ [ServingAct.writeInterrupt true]).foldl apply init).slots () =
      ⟨some (.client true), some (false, .generate)⟩ := by decide

end Serving

end Kappai
