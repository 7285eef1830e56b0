import Kappai.Lib.Loop
import Kappai.Sanity.VkStream

/-! Two dispatches of one command buffer that clash have a barrier between them, in every run whose
dispatches find a slot of the dirty table for each buffer that they write. -/

namespace Kappai

open VkHazards Proc VkPriv

section Commands

variable {s s' : VkPriv} {K K' : VkHazards → List VkCmd → Prop} {cs : List VkCmd}

/-- The command buffer that is recorded goes on with these commands. -/
def VkPriv.goOn (s : VkPriv) (cs : List VkCmd) : VkPriv := { s with
  ring := fun i => if s.cmd = some i then { s.ring i with cmds := (s.ring i).cmds ++ cs } else s.ring i }

theorem VkPriv.goOn_nil : s.goOn [] = s := by
  have hring : (s.goOn []).ring = s.ring := by
    funext i
    change (if _ then _ else _) = _
    rw [List.append_nil, ite_self]
  change { s with ring := (s.goOn []).ring } = s
  rw [hring]

theorem VkPriv.goOn_goOn (cs' : List VkCmd) : (s.goOn cs).goOn cs' = s.goOn (cs ++ cs') := by
  have hring : ((s.goOn cs).goOn cs').ring = (s.goOn (cs ++ cs')).ring := by
    funext i
    simp only [VkPriv.goOn]
    split_ifs
    · rw [List.append_assoc]
    · rfl
  change { s with ring := ((s.goOn cs).goOn cs').ring } = { s with ring := (s.goOn (cs ++ cs')).ring }
  rw [hring]

theorem exec_vkCmd (c : VkCmd) : Proc.exec (vkCmd c) s = (.ok (), s.goOn [c]) := by
  rw [vkCmd, exec_bind, exec_get]
  dsimp only
  cases hc : s.cmd with
  | none =>
    have hring : s.ring = (s.goOn [c]).ring := by
      funext i
      change _ = if s.cmd = some i then _ else _
      rw [hc, if_neg (by exact fun h => by cases h)]
    change (_, s) = (_, { s with ring := (s.goOn [c]).ring })
    rw [← hring]
  | some idx =>
    have hring : setAt s.ring idx { s.ring idx with cmds := (s.ring idx).cmds ++ [c] } =
        (s.goOn [c]).ring := by
      funext i
      change _ = if s.cmd = some i then _ else _
      rw [hc, setAt_eq_update, Function.update_apply]
      by_cases hi : i = idx
      · rw [if_pos hi, if_pos (congrArg some hi.symm), hi]
      · rw [if_neg hi, if_neg fun h => hi (Option.some.inj h).symm]
    change (_, { s with ring := setAt s.ring idx _ }) = (_, { s with ring := (s.goOn [c]).ring })
    rw [← hring]

theorem exec_vkCmds : Proc.exec (cs.forM vkCmd) s = (.ok (), s.goOn cs) := by
  induction cs generalizing s with
  | nil => rw [VkPriv.goOn_nil]; rfl
  | cons c cs ih =>
    change Proc.exec (vkCmd c >>= fun _ => cs.forM vkCmd) s = _
    rw [exec_bind_ok (exec_vkCmd c), ih, VkPriv.goOn_goOn, List.singleton_append]

theorem exec_modifyHazards (f : VkHazards → List VkCmd × VkHazards) :
    Proc.exec (modifyHazards f) s = (.ok (), { s with hazards := (f s.hazards).2 }.goOn (f s.hazards).1) := by
  rw [modifyHazards, exec_bind, exec_get]
  exact exec_vkCmds

/-- The command buffers stay ordered, and this is known of the current one then. -/
theorem VkPriv.Kept.goOn (hs : s.Kept K) {h' : VkHazards}
    (ho : VkOrdered s.curCmds → VkOrdered (s.curCmds ++ cs)) (hK : K' h' (s.curCmds ++ cs))
    (hnil : K' h' []) : ({ s with hazards := h' }.goOn cs).Kept K' := by
  have hcur : ∀ i, s.cmd = some i → s.curCmds = (s.ring i).cmds := fun i hi => by
    rw [VkPriv.curCmds, hi]
    rfl
  refine ⟨fun i => ?_, hs.subs, fun i hi => ?_, ?_⟩
  · simp only [VkPriv.goOn]
    split_ifs with hi
    · exact hcur i hi ▸ ho (hcur i hi ▸ hs.ring i)
    · exact hs.ring i
  · simp only [VkPriv.goOn] at hi ⊢
    have hrec : (s.ring i).recording = true := by
      split_ifs at hi
      all_goals exact hi
    obtain ⟨h1, h2, h3⟩ := hs.cur i hrec
    refine ⟨h1, h2, ?_⟩
    split_ifs
    all_goals exact h3
  · change K' h' ((s.cmd.map fun i =>
      (if s.cmd = some i then { s.ring i with cmds := (s.ring i).cmds ++ cs } else s.ring i).cmds).getD [])
    cases hc : s.cmd with
    | none => exact hnil
    | some i =>
      change K' h' (if some i = some i then _ else _ : VkRingSlot).cmds
      rw [if_pos rfl]
      exact hcur i hc ▸ hK

end Commands

section Dispatch

variable {s s' : VkPriv} {d : VkDispatch}

/-- What is known before a dispatch is recorded. -/
def Ready (d : VkDispatch) (h : VkHazards) (cmds : List VkCmd) : Prop :=
  Tracks [] [] h cmds ∧ Clear d cmds

theorem kept_quiet (hs : s.Kept (Ready d)) {c : VkCmd} (hc : c.Quiet) :
    (s.goOn [c]).Kept (Ready d) :=
  hs.goOn (fun ho => ho.quiet (List.forall_mem_singleton.2 hc))
    ⟨hs.known.1.quiet hc, hs.known.2.quiet hc⟩ ⟨Tracks.of_nil hs.known.1.count, Clear.nil⟩

theorem ready_vkBindPipeline (pipeline : ℕ) :
    Within (.keeps fun s => s.Kept (Ready d)) (vkBindPipeline pipeline) s := by
  unfold vkBindPipeline
  refine Within.bind_get (Within.ite (fun _ => Within.bind ?_ fun _ s₁ _ => ?_) fun _ => Within.pure _)
  · rw [Within, exec_vkCmd]
    exact fun hs => kept_quiet hs fun _ => ⟨id, id⟩
  · exact Within.update fun hs => hs.of_stream rfl

theorem ready_vkBindSet (set : ℕ) :
    Within (.keeps fun s => s.Kept (Ready d)) (vkBindSet set) s := by
  unfold vkBindSet
  refine Within.bind_get (Within.ite (fun _ => Within.bind ?_ fun _ s₁ _ => ?_) fun _ => Within.pure _)
  · rw [Within, exec_vkCmd]
    exact fun hs => kept_quiet hs fun _ => ⟨id, id⟩
  · exact Within.update fun hs => hs.of_stream rfl

theorem exec_vkDispatchRecord (set : ℕ) :
    ∃ s', Proc.exec (vkDispatchRecord d set) s = (.ok (), s') := by
  have hpipeline : ∃ s', Proc.exec (vkBindPipeline d.pipeline) s = (.ok (), s') := by
    rw [vkBindPipeline, exec_bind, exec_get]
    dsimp only
    split_ifs
    · exact ⟨_, exec_bind_ok (exec_vkCmd _)⟩
    · exact ⟨_, rfl⟩
  obtain ⟨s₁, h₁⟩ := hpipeline
  have hset : ∃ s', Proc.exec (vkBindSet set) s₁ = (.ok (), s') := by
    rw [vkBindSet, exec_bind, exec_get]
    dsimp only
    split_ifs
    · exact ⟨_, exec_bind_ok (exec_vkCmd _)⟩
    · exact ⟨_, rfl⟩
  obtain ⟨s₂, h₂⟩ := hset
  rw [vkDispatchRecord, exec_bind_ok h₁, exec_bind_ok h₂, exec_bind, exec_get]
  exact ⟨_, exec_vkCmd _⟩

theorem ends_vkDispatchRecord (hs : s.Kept (Ready d)) (set : ℕ) :
    Ends (fun s' => s'.Kept (Tracks d.written d.read)) (vkDispatchRecord d set) s := by
  unfold vkDispatchRecord
  refine Ends.bind_keeps hs (ready_vkBindPipeline _) fun _ s₁ h₁ => ?_
  refine Ends.bind_keeps h₁ (ready_vkBindSet _) fun _ s₂ h₂ => Ends.bind fun s₃ s₃' hget => ?_
  cases hget
  intro _ s₄ h₄
  rw [exec_vkCmd] at h₄
  cases h₄
  exact h₂.goOn (fun ho => ordered_dispatch ho h₂.known.2) (tracks_dispatch h₂.known.1)
    (Tracks.of_nil h₂.known.1.count)

/-- The dispatch gives up before it is recorded, or it is recorded. -/
theorem kept_vkDispatchCmds (hs : s.Kept (Tracks [] [])) (h1 : 1 ∉ d.bufs) :
    (∀ e s', Proc.exec (vkDispatchCmds d) s = (.error e, s') → s'.Kept (Tracks [] [])) ∧
      Ends (fun s' => s'.Kept (Tracks d.written d.read)) (vkDispatchCmds d) s := by
  rw [Ends, vkDispatchCmds]
  have hbegin := streamKept_vkDispatchBegin (d := d) hs
  rcases hb : Proc.exec (vkDispatchBegin d) s with ⟨out, s₁⟩
  rw [hb] at hbegin
  cases out with
  | error e =>
    rw [exec_bind_error hb]
    exact ⟨fun _ _ h => by cases h; exact hbegin.1, fun _ _ h => by cases h⟩
  | ok _ =>
    obtain ⟨hready, hclear⟩ := tracks_before (d := d) hbegin.1.known h1
    set s₂ := { s₁ with hazards := (s₁.hazards.before d).2 }.goOn (s₁.hazards.before d).1
    have h₂ : s₂.Kept (Ready d) := hbegin.1.goOn (fun ho => ho.quiet fun c hc => (orders_before c hc).quiet) ⟨hready, hclear⟩
      ⟨Tracks.of_nil hready.count, Clear.nil⟩
    rw [exec_bind_ok hb, exec_bind_ok (exec_modifyHazards _)]
    have hset := streamKept_vkDispatchSet (d := d) (h₂.mono And.left)
    rcases hd : Proc.exec (vkDispatchSet d) s₂ with ⟨out, s₃⟩
    rw [hd] at hset
    cases out with
    | error e =>
      rw [exec_bind_error hd]
      exact ⟨fun _ _ h => by cases h; exact hset.1, fun _ _ h => by cases h⟩
    | ok set =>
      have h₃ : s₃.Kept (Ready d) := hset.1.mono fun ht => ⟨ht, by
        rcases hset.2 with hcur | hcur
        · rw [hcur]
          exact h₂.known.2
        · rw [hcur]
          exact Clear.nil⟩
      rw [exec_bind_ok hd]
      refine ⟨fun e s₄ h => ?_, ends_vkDispatchRecord h₃ set⟩
      obtain ⟨s', hok⟩ := exec_vkDispatchRecord (s := s₃) (d := d) set
      rw [hok] at h
      cases h

/-- No buffer of a dispatch that is recorded was freed. -/
theorem zero_notMem_bufs (h : Proc.exec (vkDispatchCmds d) s = (.ok (), s')) : 0 ∉ d.bufs := by
  have hbegin : Ends (fun _ => 0 ∉ d.bufs) (vkDispatchBegin d) s := by
    unfold vkDispatchBegin
    refine Ends.bind fun _ s₁ _ => Ends.when fun s₂ => Ends.when fun s₃ => Ends.bind fun _ s₄ _ => ?_
    refine Ends.bind fun _ s₅ _ => Ends.when fun s₆ => Ends.bind fun s₇ s₈ _ => ?_
    refine Ends.ite (fun _ => Ends.throw _) fun hall => Ends.pure (fun hmem => hall ?_) _
    exact List.any_eq_true.2 ⟨0, hmem, rfl⟩
  rcases hb : Proc.exec (vkDispatchBegin d) s with ⟨out, s₁⟩
  cases out with
  | ok _ => exact hbegin _ _ hb
  | error e =>
    rw [vkDispatchCmds, exec_bind_error hb] at h
    cases h

theorem kept_vkDispatchNote (hs : s.Kept (Tracks d.written d.read)) (h0 : 0 ∉ d.bufs) (h1 : 1 ∉ d.bufs)
    (hfit : s.hazards.dirtyFits d.written = true) :
    (Proc.exec (vkDispatchNote d) s).2.Kept (Tracks [] []) := by
  rw [vkDispatchNote, exec_bind_ok (exec_modifyHazards _)]
  have hnoted : ({ s with hazards := (s.hazards.after d).2 }.goOn (s.hazards.after d).1).Kept
      (Tracks [] []) := by
    have hafter := tracks_after hs.known h0 h1 hfit
    exact hs.goOn (fun ho => ho.quiet fun c hc => (orders_vkDirtyAdd c hc).quiet) hafter (Tracks.of_nil hafter.count)
  have hrest : ∀ t : VkPriv, Within streamKept (do
      modify fun s => { s with pendingDispatches := s.pendingDispatches + 1 }
      let s ← get
      modifySlot s.ringCur fun r => { r with hasWork := true } : VkM Unit) t := fun t =>
    Within.bind_update (streamKept_of_fixes rfl)
      (Within.bind_get (streamKept_modifySlot (fun _ => rfl) fun _ h => ⟨h, rfl⟩))
  exact (hrest _ hnoted).1

/-- A step goes through when each buffer that a dispatch writes finds a slot of the dirty table, and none
has the value that the table marks removed buffers with. -/
def VkPriv.fits (s : VkPriv) (a : VkOp × List VkAnswer) : Bool :=
  match a.1 with
  | .dispatch d =>
    !d.bufs.contains 1 &&
      match Proc.exec (vkDispatchCmds d) { s with answers := a.2 } with
      | (.ok _, s') => s'.hazards.dirtyFits d.written
      | (.error _, _) => true
  | _ => true

theorem kept_vkDispatchEx (hs : s.Kept (Tracks [] [])) (h1 : 1 ∉ d.bufs)
    (hfit : Ends (fun s' => s'.hazards.dirtyFits d.written = true) (vkDispatchCmds d) s) :
    (Proc.exec (vkDispatchEx d) s).2.Kept (Tracks [] []) := by
  obtain ⟨herr, hok⟩ := kept_vkDispatchCmds hs h1
  rw [vkDispatchEx]
  rcases hc : Proc.exec (vkDispatchCmds d) s with ⟨out, s₁⟩
  cases out with
  | error e =>
    rw [exec_bind_error hc]
    exact herr e s₁ hc
  | ok _ =>
    rw [exec_bind_ok hc]
    exact kept_vkDispatchNote (hok _ s₁ hc) (zero_notMem_bufs hc) h1 (hfit _ s₁ hc)

theorem kept_step {a : VkOp × List VkAnswer} (hs : s.Kept (Tracks [] [])) (hfit : s.fits a = true) :
    (VkPriv.step s a).Kept (Tracks [] []) := by
  obtain ⟨op, answers⟩ := a
  have hs' : ({ s with answers := answers } : VkPriv).Kept (Tracks [] []) := hs.of_stream rfl
  cases op with
  | dispatch d =>
    rw [VkPriv.fits, Bool.and_eq_true] at hfit
    refine kept_vkDispatchEx hs' (by simpa using hfit.1) fun _ s₁ h₁ => ?_
    have hroom := hfit.2
    rw [h₁] at hroom
    exact hroom
  | flush => exact (streamKept_vkFlush hs').1
  | runCmd => exact (streamKept_vkRunCmd hs').1
  | alloc handle => exact (streamKept_vkAllocBuffer handle hs').1
  | free handle => exact (streamKept_vkFreeBuffer handle hs').1

theorem kept_init (setup : VkSetup) : (VkPriv.init setup).Kept (Tracks [] []) where
  ring _ := VkOrdered.nil
  subs _ h := absurd h List.not_mem_nil
  cur _ h := by cases h
  known := Tracks.of_nil (by simp [Counted, VkPriv.init, ProbeTable.held])

/-- Two dispatches of a command buffer that clash have a barrier between them that orders them and covers
what was written, and what no barrier covers is remembered. -/
theorem dispatches_ordered (setup : VkSetup) (ops : List (VkOp × List VkAnswer))
    (hrun : SafeRun VkPriv.step (fun s a => s.fits a = true) (VkPriv.init setup) ops) :
    let s := ops.foldl VkPriv.step (VkPriv.init setup)
    (∀ i, VkOrdered (s.ring i).cmds) ∧ (∀ sub ∈ s.subs, VkOrdered sub.cmds) ∧
      ∀ b, (Unparted (VkCmd.writes b) (VkCmd.covers b) s.curCmds → s.hazards.vkDirtyLookup b = true) ∧
        (Unparted (VkCmd.reads b) VkCmd.orders s.curCmds → s.hazards.vkReadsHas b = true) := by
  have hkept : (ops.foldl VkPriv.step (VkPriv.init setup)).Kept (Tracks [] []) :=
    hrun.inv (I := fun s => s.Kept (Tracks [] [])) (fun s a => kept_step) (kept_init setup)
  refine ⟨hkept.ring, hkept.subs, fun b => ⟨fun hu => ?_, fun hu => ?_⟩⟩
  · exact ((hkept.known.dirty b hu).resolve_left List.not_mem_nil).1
  · exact (hkept.known.read b hu).resolve_left List.not_mem_nil

/-- Two dispatches, the second reads what the first wrote. -/
theorem dispatches_ordered_pair :
    let setup : VkSetup := ⟨true, false, fun _ => 2, []⟩
    let first : VkDispatch := ⟨7, [16, 32], fun _ => 0, fun _ => none, 2, false, true⟩
    let second : VkDispatch := ⟨7, [32, 16], fun _ => 0, fun _ => none, 2, false, true⟩
    let s := [(VkOp.alloc 16, []), (.alloc 32, []), (.dispatch first, []), (.dispatch second, [])].foldl
      VkPriv.step (VkPriv.init setup)
    (∀ i, VkOrdered (s.ring i).cmds) ∧ (∀ sub ∈ s.subs, VkOrdered sub.cmds) ∧
      ∀ b, (Unparted (VkCmd.writes b) (VkCmd.covers b) s.curCmds → s.hazards.vkDirtyLookup b = true) ∧
        (Unparted (VkCmd.reads b) VkCmd.orders s.curCmds → s.hazards.vkReadsHas b = true) :=
  dispatches_ordered _ _ (by decide +kernel)

section Lost

/-- The last commands: a dispatch, the set of the next and the dispatch itself. -/
def lastPair (buf : ℕ) : List VkCmd → Bool
  | [.dispatch uses _ _, .bindSet _, .dispatch uses' _ _] =>
    uses.contains (buf, true) && uses'.contains (buf, false)
  | _ => false

theorem not_ordered_of_lastPair {buf n : ℕ} {cmds : List VkCmd} (h : lastPair buf (cmds.drop n) = true) :
    ¬ VkOrdered cmds := by
  intro ho
  rw [← List.take_append_drop n cmds] at ho
  generalize cmds.take n = pre at ho
  generalize cmds.drop n = post at ho h
  rw [lastPair.eq_def] at h
  split at h
  case h_1 uses _ _ set uses' _ _ =>
    rw [Bool.and_eq_true, List.contains_iff_mem, List.contains_iff_mem] at h
    obtain ⟨c, hc, hsep⟩ := (ho buf).1 pre _ [.bindSet set] _ [] rfl h.1 (Or.inr h.2)
    obtain rfl := List.mem_singleton.1 hc
    exact hsep
  case h_2 => cases h

/-- A dispatch with the buffers `16 * i` for these `i`, of which it writes those of the mask. -/
def plain (ids : List ℕ) (mask : ℕ) : VkOp × List VkAnswer :=
  (.dispatch ⟨7, ids.map (16 * ·), fun _ => 0, fun _ => none, mask, false, true⟩, [])

/-- Buffers are written eight at a time, each time after a barrier over the eight before, until every
slot of the table was used; the 257th is written and read then. -/
def lostRun : List (VkOp × List VkAnswer) :=
  ((List.range 257).map fun i => (.alloc (16 * (i + 1)), [])) ++
    [plain (256 :: (List.range 8).map (· + 1)) (2 ^ 9 - 1)] ++
    ((List.range 30).map fun t => plain ((List.range 16).map (8 * t + · + 1)) (2 ^ 16 - 2 ^ 8)) ++
    [plain ((List.range 15).map (240 + · + 1)) (2 ^ 15 - 2 ^ 8), plain [249, 257] 2, plain [257] 0]

/-- The buffers of a dispatch are distinct, and none is null. -/
def VkOp.proper : VkOp → Bool
  | .dispatch d => decide d.bufs.Nodup && !d.bufs.contains 0
  | _ => true

theorem lostRun_last : lastPair (16 * 257)
    (((lostRun.foldl VkPriv.step (VkPriv.init ⟨true, false, fun _ => 16, []⟩)).ring 0).cmds.drop 98) =
      true := by decide +kernel

theorem write_forgotten : (∀ a ∈ lostRun, a.1.proper = true) ∧
    ¬ VkOrdered ((lostRun.foldl VkPriv.step (VkPriv.init ⟨true, false, fun _ => 16, []⟩)).ring 0).cmds :=
  ⟨by decide +kernel, not_ordered_of_lastPair lostRun_last⟩

end Lost

end Dispatch

end Kappai
