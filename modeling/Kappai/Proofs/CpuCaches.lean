import Kappai.Lib.Loop
import Kappai.Spec.CpuBackend

/-! Two caches on one CPU backend. A call reads the private state of its layer and the cache's
own buffer, and no more; as long as the private state of a layer is what the cache's own last
call has left there, the cache does not notice the others. -/

namespace Kappai

variable {ι β : Type*}

/-- The part of the private state a call about `layer` reads. -/
def CpuPriv.layerView (p : CpuPriv) (layer : ℕ) : KvQuant × Option ℕ × ℕ × ℕ × ℕ × ℕ :=
  (p.kvQuant, p.kvLayerOff.map (· layer), p.kvPosCap layer, p.kvBasePos layer, p.kvNLayers,
    p.kvKBytes)

namespace CpuPriv

variable {p q : CpuPriv} {layer : ℕ}

theorem layerView_eq (h : p.layerView layer = q.layerView layer) :
    p.kvQuant = q.kvQuant ∧ p.kvLayerOff.map (· layer) = q.kvLayerOff.map (· layer) ∧
      p.kvPosCap layer = q.kvPosCap layer ∧ p.kvBasePos layer = q.kvBasePos layer ∧
      p.kvNLayers = q.kvNLayers ∧ p.kvKBytes = q.kvKBytes := by
  simpa only [layerView, Prod.mk.injEq] using h

variable (h : p.layerView layer = q.layerView layer) (a : KvArgs)

include h

theorem layerCheck_congr : p.layerCheck layer = q.layerCheck layer := by
  obtain ⟨-, -, -, -, hn, -⟩ := layerView_eq h
  rw [layerCheck, layerCheck, hn]

theorem layerRows_congr : p.layerRows a layer = q.layerRows a layer := by
  obtain ⟨-, -, hcap, -⟩ := layerView_eq h
  rw [layerRows, layerRows, hcap]

theorem rowBytes_congr : p.rowBytes a = q.rowBytes a := by
  rw [rowBytes, rowBytes, (layerView_eq h).1]

theorem layerBase_congr : p.layerBase a layer = q.layerBase a layer := by
  obtain ⟨-, hoff, -⟩ := layerView_eq h
  rw [layerBase, layerBase, layerRows_congr h, rowBytes_congr h]
  cases hp : p.kvLayerOff with
  | none =>
    cases hq : q.kvLayerOff with
    | none => rfl
    | some g => simp [hp, hq] at hoff
  | some f =>
    cases hq : q.kvLayerOff with
    | none => simp [hp, hq] at hoff
    | some g => simpa [hp, hq] using hoff

end CpuPriv

/-- What a cache sees of a call about `layer`: the private state of the layer and its memory. -/
def seenAt (layer : ℕ) (s : CpuPriv × KvMem β) :
    (KvQuant × Option ℕ × ℕ × ℕ × ℕ × ℕ) × KvMem β := (s.1.layerView layer, s.2)

section Views

variable {p q : CpuPriv} {layer : ℕ} {mem : KvMem β} {a : KvArgs}

theorem cpuKvPutRows_congr (h : p.layerView layer = q.layerView layer) (posStart m : ℕ)
    (rows : ℕ → ℕ → ℕ → Option β) :
    (cpuKvPutRows p mem a layer posStart m rows).map (seenAt layer) =
      (cpuKvPutRows q mem a layer posStart m rows).map (seenAt layer) := by
  obtain ⟨hquant, hoff, hcap, hbase, hn, hbytes⟩ := CpuPriv.layerView_eq h
  have hfits : cpuKvPutFits p a layer = cpuKvPutFits q a layer := by
    rw [cpuKvPutFits, cpuKvPutFits, hcap, hbytes, CpuPriv.layerBase_congr h,
      CpuPriv.layerRows_congr h, CpuPriv.rowBytes_congr h]
  rw [cpuKvPutRows, cpuKvPutRows, CpuPriv.layerCheck_congr h, hfits, hcap, hbase,
    CpuPriv.layerBase_congr h, CpuPriv.layerRows_congr h, CpuPriv.rowBytes_congr h]
  split_ifs
  · rfl
  all_goals
    simp only [Option.map_some, seenAt, CpuPriv.layerView, Function.update_self, hquant, hoff,
      hcap, hn, hbytes]

theorem cpuKvPutBatch_congr (h : p.layerView layer = q.layerView layer) (posStart m : ℕ)
    (rows : ℕ → ℕ → ℕ → Option β) :
    (cpuKvPutBatch p mem a layer posStart m rows).map (seenAt layer) =
      (cpuKvPutBatch q mem a layer posStart m rows).map (seenAt layer) := by
  unfold cpuKvPutBatch
  split_ifs
  · rw [Option.map_some, Option.map_some, seenAt, seenAt, h]
  · exact cpuKvPutRows_congr h posStart m rows

theorem cpuAttnRows_congr (h : p.layerView layer = q.layerView layer) (window pos head : ℕ) :
    cpuAttnRows p mem a layer window pos head = cpuAttnRows q mem a layer window pos head := by
  obtain ⟨-, -, -, hbase, -⟩ := CpuPriv.layerView_eq h
  rw [cpuAttnRows, cpuAttnRows, hbase, CpuPriv.layerBase_congr h, CpuPriv.layerRows_congr h,
    CpuPriv.rowBytes_congr h]

theorem cpuKvShiftRows_congr (h : p.layerView layer = q.layerView layer) (turn : KvTurn β)
    (chunks : List KvShiftChunk) :
    cpuKvShiftRows turn p mem a layer chunks = cpuKvShiftRows turn q mem a layer chunks := by
  obtain ⟨hquant, -, -, hbase, -⟩ := CpuPriv.layerView_eq h
  unfold cpuKvShiftRows cpuKvLoadHead
  rw [hquant, hbase, CpuPriv.layerBase_congr h, CpuPriv.layerRows_congr h,
    CpuPriv.rowBytes_congr h]

/-- The puts of a shift, from states that look alike. -/
theorem cpuKvShiftPut_foldlM_congr {s t : CpuPriv × KvMem β} (h : seenAt layer s = seenAt layer t)
    (rows : List (ℕ × (ℕ → ℕ → Option β))) :
    (rows.foldlM (cpuKvShiftPut a layer) s).map (seenAt layer) =
      (rows.foldlM (cpuKvShiftPut a layer) t).map (seenAt layer) := by
  induction rows generalizing s t with
  | nil => exact congrArg some h
  | cons r rows ih =>
    obtain ⟨hview, hmem⟩ : s.1.layerView layer = t.1.layerView layer ∧ s.2 = t.2 :=
      Prod.mk.inj h
    have hput : (cpuKvShiftPut a layer s r).map (seenAt layer) =
        (cpuKvShiftPut a layer t r).map (seenAt layer) := by
      obtain ⟨-, -, -, hbase, -⟩ := CpuPriv.layerView_eq hview
      unfold cpuKvShiftPut cpuKvPut
      rw [hbase, hmem]
      split_ifs
      · exact congrArg some h
      · exact cpuKvPutRows_congr hview _ _ _
    rw [List.foldlM_cons, List.foldlM_cons]
    cases hs : cpuKvShiftPut a layer s r with
    | none =>
      cases ht : cpuKvShiftPut a layer t r with
      | none => rfl
      | some t' => simp [hs, ht] at hput
    | some s' =>
      cases ht : cpuKvShiftPut a layer t r with
      | none => simp [hs, ht] at hput
      | some t' =>
        rw [hs, ht] at hput
        exact ih (Option.some.inj hput)

/-- A call on a layer does to its cache what the layer's private state makes it do. -/
theorem cpuKvShift_congr (h : p.layerView layer = q.layerView layer) (turn : KvTurn β)
    (chunks : List KvShiftChunk) :
    (cpuKvShift turn p mem a layer chunks).map (Prod.map (seenAt layer) id) =
      (cpuKvShift turn q mem a layer chunks).map (Prod.map (seenAt layer) id) := by
  have hsame : seenAt layer (p, mem) = seenAt layer (q, mem) := by rw [seenAt, seenAt, h]
  obtain ⟨-, -, -, hbase, -⟩ := CpuPriv.layerView_eq h
  unfold cpuKvShift
  rw [CpuPriv.layerCheck_congr h, hbase, cpuKvShiftRows_congr h]
  split_ifs
  · rw [Option.map_some, Option.map_some, Prod.map_apply, Prod.map_apply, hsame]
  · rfl
  · rw [Option.map_some, Option.map_some, Prod.map_apply, Prod.map_apply, hsame]
  · have := congrArg (Option.map fun s => (s, (KvOut.ok : KvOut β)))
      (cpuKvShiftPut_foldlM_congr (a := a) hsame (cpuKvShiftRows turn q mem a layer chunks))
    simpa only [Option.map_map, Function.comp_def, Prod.map_apply, id] using this

end Views

/-! Calls on other layers. -/

/-- What a call about `layer` leaves of the other layers. -/
def CpuPriv.SameElse (layer : ℕ) (p p' : CpuPriv) : Prop :=
  ∀ l, l ≠ layer → p'.layerView l = p.layerView l

theorem cpuKvPutRows_else {p p' : CpuPriv} {mem mem' : KvMem β} {a : KvArgs}
    {layer posStart m : ℕ} {rows : ℕ → ℕ → ℕ → Option β}
    (h : cpuKvPutRows p mem a layer posStart m rows = some (p', mem')) :
    p.SameElse layer p' := by
  unfold cpuKvPutRows at h
  split_ifs at h
  all_goals
    obtain ⟨rfl, -⟩ := Prod.mk.inj (Option.some.inj h)
    intro l hl
    simp only [CpuPriv.layerView, Function.update_of_ne hl]

theorem cpuKvShiftPut_else {a : KvArgs} {layer : ℕ} {rows : List (ℕ × (ℕ → ℕ → Option β))}
    {s s' : CpuPriv × KvMem β} (h : rows.foldlM (cpuKvShiftPut a layer) s = some s') :
    s.1.SameElse layer s'.1 := by
  induction rows generalizing s with
  | nil =>
    cases h
    exact fun _ _ => rfl
  | cons r rows ih =>
    rw [List.foldlM_cons] at h
    obtain ⟨s₁, hs₁, hrest⟩ := Option.bind_eq_some_iff.1 h
    unfold cpuKvShiftPut at hs₁
    split_ifs at hs₁
    · cases hs₁
      exact ih hrest
    · intro l hl
      rw [ih hrest l hl]
      exact cpuKvPutRows_else hs₁ l hl

/-- The layer a call is about; `kv_alloc` is about all of them. -/
def KvCall.layer : KvCall β → Option ℕ
  | .alloc _ => none
  | .put _ l _ _ => some l
  | .putBatch _ l _ _ _ => some l
  | .shift _ _ l _ => some l
  | .attention _ l _ _ _ => some l

theorem KvCall.exec_congr {c : KvCall β} {layer : ℕ} (hc : c.layer = some layer)
    {p q : CpuPriv} (h : p.layerView layer = q.layerView layer) (mem : KvMem β) :
    (c.exec p mem).map (Prod.map (seenAt layer) id) =
      (c.exec q mem).map (Prod.map (seenAt layer) id) := by
  have hok : ∀ {x y : Option (CpuPriv × KvMem β)}, x.map (seenAt layer) = y.map (seenAt layer) →
      (x.map fun s => (s, (KvOut.ok : KvOut β))).map (Prod.map (seenAt layer) id) =
        (y.map fun s => (s, KvOut.ok)).map (Prod.map (seenAt layer) id) := by
    intro x y hxy
    have := congrArg (Option.map fun s => (s, (KvOut.ok : KvOut β))) hxy
    simpa only [Option.map_map, Function.comp_def, Prod.map_apply, id] using this
  cases c with
  | alloc d => cases hc
  | put a l pos row =>
    cases hc
    exact hok (cpuKvPutRows_congr h _ _ _)
  | putBatch a l posStart m rows =>
    cases hc
    exact hok (cpuKvPutBatch_congr h _ _ _)
  | shift turn a l chunks =>
    cases hc
    exact cpuKvShift_congr h turn chunks
  | attention a l window pos head =>
    cases hc
    simp only [exec, CpuPriv.layerCheck_congr h, cpuAttnRows_congr h]
    split_ifs
    · rfl
    · rw [Option.map_some, Option.map_some, Prod.map_apply, Prod.map_apply, seenAt, seenAt, h]

theorem KvCall.exec_else {c : KvCall β} {layer : ℕ} (hc : c.layer = some layer)
    {p : CpuPriv} {mem : KvMem β} {r : (CpuPriv × KvMem β) × KvOut β} (h : c.exec p mem = some r) :
    p.SameElse layer r.1.1 := by
  cases c with
  | alloc d => cases hc
  | put a l pos row =>
    cases hc
    obtain ⟨s, hs, rfl⟩ := Option.map_eq_some_iff.1 h
    exact cpuKvPutRows_else hs
  | putBatch a l posStart m rows =>
    cases hc
    obtain ⟨s, hs, rfl⟩ := Option.map_eq_some_iff.1 h
    unfold cpuKvPutBatch at hs
    split_ifs at hs
    · cases hs
      exact fun _ _ => rfl
    · exact cpuKvPutRows_else hs
  | shift turn a l chunks =>
    cases hc
    unfold exec cpuKvShift at h
    dsimp only at h
    split_ifs at h
    · cases h
      exact fun _ _ => rfl
    · cases h
      exact fun _ _ => rfl
    · obtain ⟨s, hs, rfl⟩ := Option.map_eq_some_iff.1 h
      exact cpuKvShiftPut_else hs
  | attention a l window pos head =>
    cases hc
    unfold exec at h
    dsimp only at h
    split_ifs at h
    cases h
    exact fun _ _ => rfl

namespace CpuBackend

variable [DecidableEq ι]

/-- A backend, and what each cache's own last call about a layer has left there. -/
structure Watched (ι β : Type*) where
  backend : CpuBackend ι β
  seen : ι → ℕ → KvQuant × Option ℕ × ℕ × ℕ × ℕ × ℕ

namespace Watched

def init : Watched ι β := ⟨CpuBackend.init, fun _ => CpuPriv.init.layerView⟩

def exec (w : Watched ι β) (op : ι × KvCall β) : Option (Watched ι β) :=
  (w.backend.exec op).map fun r =>
    ⟨r.1, Function.update w.seen op.1 (match op.2.layer with
      | none => r.1.priv.layerView
      | some l => Function.update (w.seen op.1) l (r.1.priv.layerView l))⟩

def step (w : Option (Watched ι β)) (op : ι × KvCall β) : Option (Watched ι β) :=
  w.bind fun w => w.exec op

/-- A call on `a` finds the layer's private state as the last call on `a` left it. -/
def undisturbed (a : ι) (w? : Option (Watched ι β)) (op : ι × KvCall β) : Prop :=
  op.1 = a → ∀ w ∈ w?, ∀ l ∈ op.2.layer, w.backend.priv.layerView l = w.seen a l

instance (a : ι) (w? : Option (Watched ι β)) (op : ι × KvCall β) :
    Decidable (undisturbed a w? op) :=
  inferInstanceAs (Decidable (_ → ∀ w ∈ w?, ∀ l ∈ op.2.layer, _))

/-- The backend of the calls on cache `a` alone: the same buffer, and in each layer the private
state `a` has seen last. -/
def Alone (a : ι) (w : Watched ι β) (t : CpuBackend ι β) : Prop :=
  t.cache a = w.backend.cache a ∧ ∀ l, t.priv.layerView l = w.seen a l

theorem step_backend (w : Option (Watched ι β)) (ops : List (ι × KvCall β)) :
    (ops.foldl step w).map backend = ops.foldl CpuBackend.step (w.map backend) := by
  induction ops generalizing w with
  | nil => rfl
  | cons op ops ih =>
    rw [List.foldl_cons, List.foldl_cons, ih]
    congr 1
    cases w with
    | none => rfl
    | some w =>
      simp only [step, exec, CpuBackend.step, Option.map_some, Option.bind_some, Option.map_map,
        Function.comp_def]

theorem foldl_none (ops : List (ι × KvCall β)) : ops.foldl step none = none := by
  induction ops with
  | nil => rfl
  | cons op ops ih => exact ih

/-- The next call on `a` returns the same alone, and leaves the caches alike. -/
theorem Alone.exec_own {a : ι} {w : Watched ι β} {t : CpuBackend ι β} (h : w.Alone a t)
    {c : KvCall β} (hok : undisturbed a (some w) (a, c)) :
    (t.exec (a, c)).map Prod.snd = (w.backend.exec (a, c)).map Prod.snd ∧
      ∀ w' ∈ w.exec (a, c), ∃ r, t.exec (a, c) = some r ∧ w'.Alone a r.1 := by
  cases hc : c.layer with
  | none =>
    cases c with
    | alloc d =>
      refine ⟨rfl, ?_⟩
      rintro w' ⟨⟩
      refine ⟨_, rfl, ?_, fun l => ?_⟩
      · change Function.update _ _ _ a = Function.update _ _ _ a
        rw [Function.update_self, Function.update_self]
      · exact (congrFun (Function.update_self a _ w.seen) l).symm
    | _ => cases hc
  | some l =>
    have hview : t.priv.layerView l = w.backend.priv.layerView l :=
      (h.2 l).trans (hok rfl w rfl l hc).symm
    have hcongr := KvCall.exec_congr hc hview (t.cache a)
    rw [h.1] at hcongr
    unfold CpuBackend.exec Watched.exec CpuBackend.exec
    rw [h.1]
    cases ht : c.exec t.priv (w.backend.cache a) with
    | none =>
      cases hw : c.exec w.backend.priv (w.backend.cache a) with
      | none => exact ⟨rfl, by rintro w' ⟨⟩⟩
      | some r => simp [ht, hw] at hcongr
    | some r =>
      cases hw : c.exec w.backend.priv (w.backend.cache a) with
      | none => simp [ht, hw] at hcongr
      | some r' =>
        rw [ht, hw] at hcongr
        obtain ⟨hseen, hout⟩ := Prod.mk.inj (Option.some.inj hcongr)
        obtain ⟨hpriv, hmem⟩ := Prod.mk.inj hseen
        refine ⟨congrArg some hout, ?_⟩
        rintro w' ⟨⟩
        refine ⟨_, rfl, ?_, fun j => ?_⟩
        · change Function.update _ a _ a = Function.update _ a _ a
          rw [Function.update_self, Function.update_self, hmem]
        · refine Eq.trans ?_ (congrFun (Function.update_self a _ w.seen) j).symm
          simp only [hc]
          rcases eq_or_ne j l with rfl | hne
          · rw [Function.update_self]
            exact hpriv
          · rw [Function.update_of_ne hne, ← h.2 j]
            exact KvCall.exec_else hc ht j hne

/-- A call on another cache changes nothing that `a` has or has seen. -/
theorem Alone.exec_other {a : ι} {w w' : Watched ι β} {t : CpuBackend ι β} (h : w.Alone a t)
    {op : ι × KvCall β} (hne : op.1 ≠ a) (hw' : w.exec op = some w') : w'.Alone a t := by
  obtain ⟨r, hr, rfl⟩ := Option.map_eq_some_iff.1 hw'
  obtain ⟨s, hs, rfl⟩ := Option.map_eq_some_iff.1 hr
  constructor
  · change _ = Function.update w.backend.cache op.1 s.1.2 a
    rw [Function.update_of_ne hne.symm]
    exact h.1
  · intro l
    change _ = Function.update w.seen op.1 _ a l
    rw [Function.update_of_ne hne.symm]
    exact h.2 l

theorem Alone.run {a : ι} {ops : List (ι × KvCall β)} {w w' : Watched ι β} {t : CpuBackend ι β}
    (h : w.Alone a t) (hsafe : SafeRun step (undisturbed a) (some w) ops)
    (hw' : ops.foldl step (some w) = some w') :
    ∃ t', (ops.filter (·.1 = a)).foldl CpuBackend.step (some t) = some t' ∧ w'.Alone a t' := by
  induction ops generalizing w t with
  | nil =>
    cases hw'
    exact ⟨t, rfl, h⟩
  | cons op ops ih =>
    obtain ⟨hok, hsafe⟩ := hsafe
    rw [List.foldl_cons] at hw'
    change ops.foldl step (w.exec op) = some w' at hw'
    change SafeRun step (undisturbed a) (w.exec op) ops at hsafe
    cases hexec : w.exec op with
    | none =>
      rw [hexec, (foldl_none ops)] at hw'
      cases hw'
    | some w₁ =>
      rw [hexec] at hw' hsafe
      by_cases heq : op.1 = a
      · obtain ⟨a, c⟩ := op
        cases heq
        obtain ⟨-, hown⟩ := h.exec_own hok
        obtain ⟨r, hr, h₁⟩ := hown w₁ hexec
        rw [List.filter_cons_of_pos (by simp), List.foldl_cons]
        have hstep : CpuBackend.step (some t) (a, c) = some r.1 := congrArg (Option.map Prod.fst) hr
        rw [hstep]
        exact ih h₁ hsafe hw'
      · rw [List.filter_cons_of_neg (by simpa using heq)]
        exact ih (h.exec_other heq hexec) hsafe hw'

end Watched

/-- In every run whose calls on cache `a` all find the private state of their layer as `a` has
left it, the next such call returns what it returns when the calls on the other caches are left
out; attention reads the same rows. -/
theorem exec_alone (a : ι) (ops : List (ι × KvCall β)) (c : KvCall β)
    (hrun : SafeRun Watched.step (Watched.undisturbed a) (some Watched.init) (ops ++ [(a, c)]))
    {s : CpuBackend ι β} (hs : ops.foldl step (some init) = some s) :
    ∃ t, (ops.filter (·.1 = a)).foldl step (some init) = some t ∧
      (t.exec (a, c)).map Prod.snd = (s.exec (a, c)).map Prod.snd := by
  obtain ⟨hsafe, hlast, -⟩ := safeRun_append.1 hrun
  have hback := Watched.step_backend (some Watched.init) ops
  rw [Option.map_some, show (Watched.init : Watched ι β).backend = init from rfl, hs] at hback
  obtain ⟨w, hw, rfl⟩ := Option.map_eq_some_iff.1 hback
  obtain ⟨t, ht, halone⟩ := Watched.Alone.run ⟨rfl, fun _ => rfl⟩ hsafe hw
  rw [hw] at hlast
  exact ⟨t, ht, (halone.exec_own hlast).1⟩

def slotArgs : KvArgs := ⟨1, 1, 32, 1⟩

/-- Two slots of a server have their caches allocated; the first one is put three rows. -/
def twoSlots : List (Bool × KvCall ℕ) :=
  let d : KvDesc := ⟨1, 1, 1, 32, .f16, none, some fun _ => 10⟩
  [(true, .alloc d), (false, .alloc d),
    (true, .putBatch slotArgs 0 0 3 fun i _ b => some (2 * i + b))]

/-- A pass of the second slot. -/
def otherPut (pos : ℕ) : Bool × KvCall ℕ :=
  (false, .putBatch slotArgs 0 pos 9 fun _ _ _ => some 0)

theorem exec_alone_twoSlots :
    SafeRun Watched.step (Watched.undisturbed true) (some Watched.init)
      ((twoSlots ++ [otherPut 0]) ++ [(true, .attention slotArgs 0 2 2 0)]) ∧
    ∃ s t : CpuBackend Bool ℕ, (twoSlots ++ [otherPut 0]).foldl step (some init) = some s ∧
      ((twoSlots ++ [otherPut 0]).filter (·.1 = true)).foldl step (some init) = some t ∧
      (t.exec (true, .attention slotArgs 0 2 2 0)).map Prod.snd =
        (s.exec (true, .attention slotArgs 0 2 2 0)).map Prod.snd := by
  have hrun : SafeRun Watched.step (Watched.undisturbed true) (some Watched.init)
      ((twoSlots ++ [otherPut 0]) ++ [(true, .attention slotArgs 0 2 2 0)]) := by
    decide +kernel
  have hsome : ((twoSlots ++ [otherPut 0]).foldl step (some init)).isSome := by decide +kernel
  obtain ⟨s, hs⟩ := Option.isSome_iff_exists.1 hsome
  obtain ⟨t, ht, hread⟩ := exec_alone true (twoSlots ++ [otherPut 0]) _ hrun hs
  exact ⟨hrun, s, t, hs, ht, hread⟩

/-- Once the second slot's passes have compacted the layer, the first one reads no row. -/
theorem exec_other_compacts :
    ((twoSlots ++ [otherPut 0, otherPut 9]).foldl step (some init)).bind (fun s =>
        (s.exec (true, .attention slotArgs 0 2 2 0)).map Prod.snd) = some (.rows []) ∧
      (((twoSlots ++ [otherPut 0, otherPut 9]).filter (·.1 = true)).foldl step
        (some init)).bind (fun s =>
          (s.exec (true, .attention slotArgs 0 2 2 0)).map Prod.snd) =
        some (.rows [[some 2, some 3], [some 4, some 5]]) := by
  decide +kernel

end CpuBackend

end Kappai
