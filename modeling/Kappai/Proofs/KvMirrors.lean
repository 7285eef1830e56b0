import Kappai.Sanity.KvMirrors

/-! No device keeps a stale copy: what every reader finds is what was put, or shifted, last. -/

namespace Kappai

variable {α : Type*}

/-- The rows of a slot after `n` rows are put from `posStart` on. -/
def putRows (new : ℕ → α) (posStart n : ℕ) (rows : ℕ → Option α) (pos : ℕ) : Option α :=
  if posStart ≤ pos ∧ pos < posStart + n then some (new (pos - posStart)) else rows pos

/-- What each layer's rows are after a call, whatever the devices. -/
def kvLast (rotate : ℕ → List KvShiftChunk → (ℕ → Option α) → ℕ → Option α) (nKvLayers : ℕ)
    (last : ℕ → ℕ → Option α) : KvOp α → ℕ → ℕ → Option α
  | .put layer pos inp _ => Function.update last layer (putRows inp.rows pos.toNat 1 (last layer))
  | .putBatch layer posStart n inp _ =>
    Function.update last layer (putRows inp.rows posStart.toNat n (last layer))
  | .shift chunks _ => fun li => if li < nKvLayers then rotate li chunks (last li) else last li

section

variable {rows : KvRows α} {dev slot : ℕ}

theorem storeRows_other (posStart n : ℕ) (new : ℕ → Option α) {d : ℕ} (hd : d ≠ dev) :
    storeRows rows dev slot posStart n new d = rows d := by
  induction n with
  | zero => rfl
  | succ n ih =>
    rw [storeRows, List.range_succ, List.foldl_append, List.foldl_cons, List.foldl_nil, storeRow,
      Function.update_of_ne hd]
    exact ih

theorem storeRows_self (posStart n : ℕ) {f : ℕ → Option α} {new : ℕ → α}
    (h : ∀ i < n, f i = some (new i)) :
    storeRows rows dev slot posStart n f dev =
      Function.update (rows dev) slot (putRows new posStart n (rows dev slot)) := by
  induction n with
  | zero =>
    have hnone : putRows new posStart 0 (rows dev slot) = rows dev slot :=
      funext fun pos => if_neg (by omega)
    rw [hnone, Function.update_eq_self]
    rfl
  | succ n ih =>
    rw [storeRows, List.range_succ, List.foldl_append, List.foldl_cons, List.foldl_nil,
      ← storeRows, storeRow, Function.update_self, ih fun i hi => h i (Nat.lt_succ_of_lt hi),
      Function.update_self, Function.update_idem, h n n.lt_succ_self]
    refine congrArg (Function.update (rows dev) slot) (funext fun pos => ?_)
    rw [Function.update_apply]
    unfold putRows
    by_cases hpos : pos = posStart + n
    · rw [if_pos hpos, if_pos (by omega), hpos, Nat.add_sub_cancel_left]
    · rw [if_neg hpos]
      exact if_congr (by omega) rfl rfl

end

section

variable {c : KvLayout} {m : KvModel} {ans : KvAnswers} {inp : KvInput α} {layer posStart n : ℕ}

/-- The buffers of a put hold rows of its input: the host copy is of its only row, and is not ready
before a row of several. -/
structure Buffered (inp : KvInput α) (n : ℕ) (s : KvPut α) : Prop where
  staged : ∀ row, s.staged = some row → n ≤ 1 ∧ row = inp.rows 0
  native : ∀ new, s.native = some new → ∀ i < n, new i = some (inp.rows i)

/-- The rows of one device. -/
def KvLayout.written (c : KvLayout) (m : KvModel) (inp : KvInput α) (layer posStart n d : ℕ)
    (rows : ℕ → ℕ → Option α) : ℕ → ℕ → Option α :=
  Function.update rows (c.deviceView m d layer).1
    (putRows inp.rows posStart n (rows (c.deviceView m d layer).1))

theorem putDevice_spec {s s' : KvPut α} {dev i : ℕ} (hi : i < n) (h : Buffered inp n s)
    (hrun : kvcachePutDevice c m ans inp dev layer (posStart + i) i s = some s') :
    s'.rows = storeRow s.rows dev (c.deviceView m dev layer).1 (posStart + i) (some (inp.rows i)) ∧
      s'.native = s.native ∧ s'.nativeOff = s.nativeOff ∧
      ∀ row, s'.staged = some row → row = inp.rows i := by
  have hzero : ∀ row, s.staged = some row → row = inp.rows i := fun row hrow => by
    obtain ⟨hn, hrow⟩ := h.staged row hrow
    rw [hrow, show i = 0 by omega]
  unfold kvcachePutDevice at hrun
  dsimp only at hrun
  by_cases hon : inp.onDevice c m dev = true
  · rw [if_pos hon] at hrun
    split_ifs at hrun with hput
    obtain rfl := Option.some.inj hrun
    exact ⟨rfl, rfl, rfl, hzero⟩
  · rw [if_neg hon] at hrun
    cases hs : s.staged with
    | some row =>
      rw [hs] at hrun
      dsimp only at hrun
      split_ifs at hrun with hput
      obtain rfl := Option.some.inj hrun
      rw [← hzero row hs]
      exact ⟨rfl, rfl, rfl, fun row' hrow => (Option.some.inj hrow).symm⟩
    | none =>
      rw [hs] at hrun
      by_cases hstage : ans.stage dev (posStart + i) = true
      · simp only [if_pos hstage] at hrun
        split_ifs at hrun with hput
        obtain rfl := Option.some.inj hrun
        exact ⟨rfl, rfl, rfl, fun row' hrow => (Option.some.inj hrow).symm⟩
      · simp only [if_neg hstage] at hrun
        cases hrun

/-- A range of rows goes to one device, row by row or in one call. -/
theorem putDeviceRange_spec {s s' : KvPut α} {dev : ℕ} (h : Buffered inp n s)
    (hrun : kvcachePutDeviceRange c m ans inp dev layer posStart n s = some s') :
    s'.rows dev = c.written m inp layer posStart n dev (s.rows dev) ∧
      (∀ d ≠ dev, s'.rows d = s.rows d) ∧ s'.native = s.native ∧ s'.nativeOff = s.nativeOff ∧
      Buffered inp n s' := by
  unfold kvcachePutDeviceRange at hrun
  dsimp only at hrun
  have hstored : ∀ rows : KvRows α, rows = storeRows s.rows dev (c.deviceView m dev layer).1 posStart
      n (fun i => some (inp.rows i)) → rows dev = c.written m inp layer posStart n dev (s.rows dev) ∧
        ∀ d ≠ dev, rows d = s.rows d := by
    rintro rows rfl
    exact ⟨storeRows_self posStart n fun _ _ => rfl, fun d hd => storeRows_other posStart n _ hd⟩
  split_ifs at hrun with hbatch hput
  · obtain rfl := Option.some.inj hrun
    obtain ⟨hself, hother⟩ := hstored _ rfl
    exact ⟨hself, hother, rfl, rfl, h.staged, h.native⟩
  · have hloop := foldlM_range_inv
      (I := fun k (t : KvPut α) => t.rows = storeRows s.rows dev (c.deviceView m dev layer).1
          posStart k (fun i => some (inp.rows i)) ∧ t.native = s.native ∧
          t.nativeOff = s.nativeOff ∧ Buffered inp n t)
      (fun k hk t t' ht hstep => ?_) ⟨rfl, rfl, rfl, h⟩ hrun
    · obtain ⟨hrows, hnative, hoff, hbuf⟩ := hloop
      obtain ⟨hself, hother⟩ := hstored _ hrows
      exact ⟨hself, hother, hnative, hoff, hbuf⟩
    · obtain ⟨hrows, hnative, hoff, hbuf⟩ := ht
      obtain ⟨u, hu, rfl⟩ := Option.map_eq_some_iff.mp hstep
      obtain ⟨hurows, hunative, huoff, hustaged⟩ := putDevice_spec hk hbuf hu
      have hnext : u.rows = storeRows s.rows dev (c.deviceView m dev layer).1 posStart (k + 1)
          fun i => some (inp.rows i) := by
        rw [hurows, hrows, storeRows, storeRows, List.range_succ, List.foldl_append]
        rfl
      have hnat : ∀ new, u.native = some new → ∀ i < n, new i = some (inp.rows i) := by
        rw [hunative]
        exact hbuf.native
      split_ifs with hn
      · exact ⟨hnext, hunative.trans hnative, huoff.trans hoff,
          ⟨fun row hrow => absurd hrow (by simp), hnat⟩⟩
      · refine ⟨hnext, hunative.trans hnative, huoff.trans hoff,
          ⟨fun row hrow => ⟨by omega, ?_⟩, hnat⟩⟩
        rw [hustaged row hrow, show k = 0 by omega]

/-- The export reads back the rows that the owner of the layer was given. -/
theorem nativeExport_spec {rows : KvRows α} {s s' : KvPut α} {owner : ℕ} (h : Buffered inp n s)
    (howner : s.rows owner = c.written m inp layer posStart n owner (rows owner))
    (hrun : kvcacheNativeExport c m ans owner layer posStart s = some s') :
    s'.rows = s.rows ∧ Buffered inp n s' := by
  obtain ⟨srows, staged, native, nativeOff⟩ := s
  cases native with
  | some new =>
    obtain rfl := Option.some.inj hrun
    exact ⟨rfl, h⟩
  | none =>
    unfold kvcacheNativeExport at hrun
    dsimp only at hrun howner
    cases hans : ans.exported with
    | ok =>
      rw [hans] at hrun
      obtain rfl := Option.some.inj hrun
      refine ⟨rfl, h.staged, fun new hnew i hi => ?_⟩
      obtain rfl := Option.some.inj hnew
      have hpos : posStart ≤ posStart + i ∧ posStart + i < posStart + n := by omega
      rw [howner, KvLayout.written, Function.update_self]
      exact (if_pos hpos).trans (congrArg (some <| inp.rows ·) (Nat.add_sub_cancel_left _ _))
    | unsupported =>
      rw [hans] at hrun
      obtain rfl := Option.some.inj hrun
      exact ⟨rfl, h.staged, h.native⟩
    | failed =>
      rw [hans] at hrun
      cases hrun

/-- Only the rows of one device have changed, and these are the ones put. -/
structure Sent (c : KvLayout) (m : KvModel) (inp : KvInput α) (layer posStart n dev : ℕ)
    (s s' : KvPut α) : Prop where
  self : s'.rows dev = c.written m inp layer posStart n dev (s.rows dev)
  other : ∀ d ≠ dev, s'.rows d = s.rows d
  buffered : Buffered inp n s'

theorem putDeviceRange_sent {s s' : KvPut α} {dev : ℕ} (h : Buffered inp n s)
    (hrun : kvcachePutDeviceRange c m ans inp dev layer posStart n s = some s') :
    Sent c m inp layer posStart n dev s s' := by
  obtain ⟨hself, hother, -, -, hbuf⟩ := putDeviceRange_spec h hrun
  exact ⟨hself, hother, hbuf⟩

/-- Whichever way the rows take to a device behind the owner. -/
theorem putRangeDevice_sent {rows : KvRows α} {s s' : KvPut α} {owner dev : ℕ}
    (h : Buffered inp n s)
    (howner : s.rows owner = c.written m inp layer posStart n owner (rows owner))
    (hdev : ¬(dev = owner ∨ (c.putMask m layer).testBit dev = false))
    (hrun : putRangeDevice c m ans inp owner layer posStart n s dev = some s') :
    Sent c m inp layer posStart n dev s s' := by
  unfold putRangeDevice at hrun
  rw [if_neg hdev] at hrun
  by_cases hpair : (!s.nativeOff && kvcacheNativePair m (c.ownerOf m owner) (c.ownerOf m dev)) = true
  · rw [if_pos hpair] at hrun
    obtain ⟨t, ht, hrun⟩ := Option.bind_eq_some_iff.mp hrun
    obtain ⟨hrows, hbuf⟩ := nativeExport_spec h howner ht
    have hsame : Sent c m inp layer posStart n dev t s' → Sent c m inp layer posStart n dev s s' :=
      fun hsent => ⟨hrows ▸ hsent.self, hrows ▸ hsent.other, hsent.buffered⟩
    refine hsame ?_
    obtain ⟨trows, staged, native, nativeOff⟩ := t
    cases native with
    | none => exact putDeviceRange_sent hbuf hrun
    | some new =>
      dsimp only at hrun
      cases hans : ans.imported dev with
      | ok =>
        rw [hans] at hrun
        obtain rfl := Option.some.inj hrun
        exact ⟨storeRows_self posStart n (hbuf.native new rfl),
          fun d hd => storeRows_other posStart n new hd, hbuf.staged, hbuf.native⟩
      | unsupported =>
        rw [hans] at hrun
        have hsent := putDeviceRange_sent (s := ⟨trows, staged, some new, true⟩)
          ⟨hbuf.staged, hbuf.native⟩ hrun
        exact ⟨hsent.self, hsent.other, hsent.buffered⟩
      | failed =>
        rw [hans] at hrun
        cases hrun
  · rw [if_neg hpair] at hrun
    exact putDeviceRange_sent h hrun

/-- A put reaches the devices of its mask and no other. -/
theorem putRange_spec {rows rows' : KvRows α}
    (hrun : kvcachePutRange c m ans inp layer posStart n rows = some rows') (d : ℕ) :
    rows' d =
      if d = c.layerDevice m layer ∨
          (d < c.mirrors.length + 1 ∧ (c.putMask m layer).testBit d = true) then
        c.written m inp layer posStart n d (rows d)
      else rows d := by
  unfold kvcachePutRange at hrun
  dsimp only at hrun
  generalize c.layerDevice m layer = owner at hrun ⊢
  obtain ⟨s', hs', rfl⟩ := Option.map_eq_some_iff.mp hrun
  obtain ⟨s, hs, hloop⟩ := Option.bind_eq_some_iff.mp hs'
  have hfirst := putDeviceRange_sent ⟨by simp, by simp⟩ hs
  have hstart : Buffered inp n s ∧ ∀ d, s.rows d =
      if d = owner ∨ (d < 0 ∧ (c.putMask m layer).testBit d = true) then
        c.written m inp layer posStart n d (rows d)
      else rows d := by
    refine ⟨hfirst.buffered, fun d => ?_⟩
    split_ifs with hd
    · obtain rfl | hlt := hd
      · exact hfirst.self
      · exact absurd hlt.1 (Nat.not_lt_zero d)
    · exact hfirst.other d fun heq => hd (Or.inl heq)
  refine (foldlM_range_inv (I := fun k (t : KvPut α) => Buffered inp n t ∧ ∀ d, t.rows d =
      if d = owner ∨ (d < k ∧ (c.putMask m layer).testBit d = true) then
        c.written m inp layer posStart n d (rows d)
      else rows d) ?_ hstart hloop).2 d
  rintro k - t t' ⟨hbuf, ht⟩ hstep
  have howner : t.rows owner = c.written m inp layer posStart n owner (rows owner) := by
    rw [ht, if_pos (Or.inl rfl)]
  by_cases hskip : k = owner ∨ (c.putMask m layer).testBit k = false
  · unfold putRangeDevice at hstep
    rw [if_pos hskip] at hstep
    obtain rfl := Option.some.inj hstep
    refine ⟨hbuf, fun d => ?_⟩
    rw [ht]
    refine if_congr (or_congr_right' fun hd => and_congr_left fun hbit => ?_) rfl rfl
    have hne : d ≠ k := by
      rintro rfl
      rcases hskip with rfl | hoff
      · exact hd rfl
      · rw [hbit] at hoff
        cases hoff
    omega
  · have hsent := putRangeDevice_sent hbuf howner hskip hstep
    refine ⟨hsent.buffered, fun d => ?_⟩
    rcases eq_or_ne d k with rfl | hne
    · rw [hsent.self, ht, if_neg (by omega), if_pos]
      exact Or.inr ⟨d.lt_succ_self, by simpa using (not_or.mp hskip).2⟩
    · rw [hsent.other d hne, ht]
      exact if_congr (or_congr_right (and_congr_left fun _ => by omega)) rfl rfl

/-! ### What the devices hold after a run -/

/-- Every device that holds a slot of a layer holds the layer's last rows in it. -/
def Fresh (m : KvModel) (c : KvLayout) (last : ℕ → ℕ → Option α) (rows : KvRows α) : Prop :=
  ∀ l < m.nLayers, l < m.nKvLayers → ∀ d, (c.slotMask m l).testBit d = true →
    rows d (c.deviceView m d l).1 = last l

/-- Each device rewrites at most the slot of one layer, and rewrites it if it is held. -/
theorem Fresh.rewrite (hc : LaidOut m c) {last : ℕ → ℕ → Option α} {rows rows' : KvRows α}
    (h : Fresh m c last rows) (layer : ℕ) (f : (ℕ → Option α) → ℕ → Option α) (reached : ℕ → Prop)
    (hall : ∀ d, (c.slotMask m layer).testBit d = true → reached d)
    (honly : ∀ d, reached d → (c.slotMask m layer).testBit d = true ∨ m.nKvLayers ≤ layer ∨
      m.nLayers ≤ layer)
    (hnew : ∀ d, reached d → rows' d = Function.update (rows d) (c.deviceView m d layer).1
      (f (rows d (c.deviceView m d layer).1)))
    (hold : ∀ d, ¬reached d → rows' d = rows d) :
    Fresh m c (Function.update last layer (f (last layer))) rows' := by
  intro l hl hk d hd
  rcases eq_or_ne l layer with rfl | hne
  · rw [hnew d (hall d hd), Function.update_self, Function.update_self, h l hl hk d hd]
  · rw [Function.update_of_ne hne, ← h l hl hk d hd]
    by_cases hreach : reached d
    · rw [hnew d hreach]
      exact Function.update_of_ne
        (hc.apart l hl hk d hd layer hne.symm (honly d hreach)).symm _ _
    · rw [hold d hreach]

theorem testBit_putMask {d : ℕ} : (c.putMask m layer).testBit d = true ↔
    (c.slotMask m layer).testBit d = true ∨ d = c.layerDevice m layer := by
  unfold KvLayout.putMask
  rw [Nat.one_shiftLeft, Nat.testBit_or, Bool.or_eq_true, Nat.testBit_two_pow, decide_eq_true_eq,
    eq_comm (a := d)]

theorem putRange_fresh (hc : LaidOut m c) {last : ℕ → ℕ → Option α} {rows rows' : KvRows α}
    (h : Fresh m c last rows) (hlayer : layer < m.nLayers)
    (hrun : kvcachePutRange c m ans inp layer posStart n rows = some rows') :
    Fresh m c (Function.update last layer (putRows inp.rows posStart n (last layer))) rows' := by
  have hspec := putRange_spec hrun
  refine h.rewrite hc layer (putRows inp.rows posStart n)
    (fun d => d = c.layerDevice m layer ∨
      (d < c.mirrors.length + 1 ∧ (c.putMask m layer).testBit d = true))
    (fun d hd => ?_) (fun d hd => ?_) (fun d hd => ?_) fun d hd => ?_
  · exact Or.inr ⟨hc.known layer d hd, testBit_putMask.mpr (Or.inl hd)⟩
  · by_cases hk : layer < m.nKvLayers
    · have howner := hc.owns layer hlayer hk
      rcases hd with rfl | ⟨-, hbit⟩
      · exact Or.inl howner
      · rcases testBit_putMask.mp hbit with hbit | rfl
        · exact Or.inl hbit
        · exact Or.inl howner
    · exact Or.inr (Or.inl (Nat.le_of_not_lt hk))
  · rw [hspec d, if_pos hd, KvLayout.written]
  · rw [hspec d, if_neg hd]

variable {rotate : ℕ → List KvShiftChunk → (ℕ → Option α) → ℕ → Option α}
variable {chunks : List KvShiftChunk} {answers : ℕ → ℕ → Bool}

/-- One layer is shifted on every device that holds its slot. -/
theorem shiftLayer_spec {rows rows' : KvRows α} {li : ℕ}
    (hrun : shiftLayer rotate c m chunks answers rows li = some rows') (d : ℕ) :
    rows' d =
      if d < c.mirrors.length + 1 ∧ (c.slotMask m li).testBit d = true then
        Function.update (rows d) (c.deviceView m d li).1
          (rotate li chunks (rows d (c.deviceView m d li).1))
      else rows d := by
  unfold shiftLayer at hrun
  split_ifs at hrun
  refine foldlM_range_inv (I := fun k (t : KvRows α) => ∀ d, t d =
      if d < k ∧ (c.slotMask m li).testBit d = true then
        Function.update (rows d) (c.deviceView m d li).1
          (rotate li chunks (rows d (c.deviceView m d li).1))
      else rows d) ?_ (fun d => by simp) hrun d
  intro k _ t t' ht hstep d
  unfold shiftDevice at hstep
  dsimp only at hstep
  split_ifs at hstep with hbit hans
  · obtain rfl := Option.some.inj hstep
    rcases eq_or_ne d k with rfl | hne
    · rw [Function.update_self, ht, if_neg (by omega), if_pos ⟨d.lt_succ_self, hbit⟩]
    · rw [Function.update_of_ne hne, ht]
      exact if_congr (and_congr_left fun _ => by omega) rfl rfl
  · obtain rfl := Option.some.inj hstep
    rw [ht]
    refine if_congr (and_congr_left fun hd => ?_) rfl rfl
    have hne : d ≠ k := fun heq => hbit (heq ▸ hd)
    omega

theorem shift_fresh (hc : LaidOut m c) {last : ℕ → ℕ → Option α} {rows rows' : KvRows α}
    (h : Fresh m c last rows)
    (hrun : (List.range c.nKvLayers).foldlM (shiftLayer rotate c m chunks answers) rows =
      some rows') :
    Fresh m c (fun li => if li < m.nKvLayers then rotate li chunks (last li) else last li)
      rows' := by
  rw [hc.nKvLayers] at hrun
  refine foldlM_range_inv (I := fun k (t : KvRows α) =>
    Fresh m c (fun li => if li < k then rotate li chunks (last li) else last li) t) ?_
    (by simpa using h) hrun
  intro k _ t t' ht hstep
  have hspec := shiftLayer_spec hstep
  have hnext : Fresh m c _ t' := ht.rewrite hc k (rotate k chunks)
    (fun d => d < c.mirrors.length + 1 ∧ (c.slotMask m k).testBit d = true)
    (fun d hd => ⟨hc.known k d hd, hd⟩) (fun d hd => Or.inl hd.2)
    (fun d hd => by rw [hspec d, if_pos hd]) fun d hd => by rw [hspec d, if_neg hd]
  have hlast : (fun li => if li < k + 1 then rotate li chunks (last li) else last li) =
      Function.update (fun li => if li < k then rotate li chunks (last li) else last li) k
        (rotate k chunks (if k < k then rotate k chunks (last k) else last k)) := by
    funext li
    rcases eq_or_ne li k with rfl | hne
    · rw [Function.update_self, if_pos li.lt_succ_self, if_neg (Nat.lt_irrefl li)]
    · rw [Function.update_of_ne hne]
      exact if_congr (by omega) rfl rfl
  rw [hlast]
  exact hnext

theorem kvApply_fresh (hc : LaidOut m c) {nCtx : ℕ} {last : ℕ → ℕ → Option α} {op : KvOp α}
    {rows rows' : KvRows α} (h : Fresh m c last rows)
    (hrun : kvApply rotate c m nCtx rows op = some rows') :
    Fresh m c (kvLast rotate m.nKvLayers last op) rows' := by
  unfold kvApply at hrun
  cases op with
  | put layer pos inp ans =>
    dsimp only at hrun
    split_ifs at hrun with hbad
    exact putRange_fresh hc h (by omega) hrun
  | putBatch layer posStart nRows inp ans =>
    dsimp only at hrun
    split_ifs at hrun with hbad
    exact putRange_fresh hc h (by omega) hrun
  | shift chunks answers => exact shift_fresh hc h hrun

theorem run_fresh (hc : LaidOut m c) {nCtx : ℕ} {ops : List (KvOp α)} {last : ℕ → ℕ → Option α}
    {rows rows' : KvRows α} (h : Fresh m c last rows)
    (hrun : ops.foldlM (kvApply rotate c m nCtx) rows = some rows') :
    Fresh m c (ops.foldl (kvLast rotate m.nKvLayers) last) rows' := by
  induction ops generalizing rows last with
  | nil =>
    obtain rfl := Option.some.inj hrun
    exact h
  | cons op ops ih =>
    rw [List.foldlM_cons] at hrun
    obtain ⟨t, ht, hrest⟩ := Option.bind_eq_some_iff.mp hrun
    exact ih (kvApply_fresh hc h ht) hrest

/-- After any calls that went well, a layer that executes on a device is given a slot that the device
holds, and in it the last rows of the KV layer it reads; no two KV layers share a slot of a device. -/
theorem kvMirrors_fresh (hm : m.Shares) (hc : kvcacheSetup m = some c) {nCtx : ℕ}
    {ops : List (KvOp α)} {rows : KvRows α}
    (hrun : ops.foldlM (kvApply rotate c m nCtx) (fun _ _ _ => none) = some rows) :
    (∀ i < m.nLayers,
      (c.deviceView m (c.layerDevice m i) (m.layerKvLayer i).toNat).2 = true ∧
      (c.attnView m i (m.layerKvLayer i).toNat).2 < c.deviceSlots (c.layerDevice m i) ∧
      rows (c.attnView m i (m.layerKvLayer i).toNat).1 (c.attnView m i (m.layerKvLayer i).toNat).2 =
        ops.foldl (kvLast rotate m.nKvLayers) (fun _ _ => none) (m.layerKvLayer i).toNat) ∧
    ∀ l l' d, l < c.nKvLayers → l' < c.nKvLayers → l < m.nLayers → l' < m.nLayers → l ≠ l' →
      (c.slotMask m l).testBit d = true → (c.slotMask m l').testBit d = true →
        (c.deviceView m d l).1 ≠ (c.deviceView m d l').1 := by
  have hlaid := kvcacheSetup_laidOut hm hc
  have hfresh : Fresh m c _ rows := run_fresh hlaid (fun _ _ _ _ _ => rfl) hrun
  constructor
  · intro i hi
    obtain ⟨-, hlt, hk⟩ := hm.kvLayer hi
    have hread := hlaid.reads i hi
    have hheld := hlaid.held _ hlt hk _ hread
    exact ⟨hheld.1, hheld.2, hfresh _ hlt hk _ hread⟩
  · intro l l' d hk _ hl _ hne hd hd'
    rw [hlaid.nKvLayers] at hk
    exact (hlaid.apart l hl hk d hd l' hne.symm (Or.inl hd')).symm

end

/-- Five layers on two backends: layers 0 and 3 are executed by the first and the others by the second,
layer 3 reads the slot of layer 1, and layer 4 that of layer 2. -/
def twoBackends : KvModel where
  nLayers := 5
  backend := 0
  kvOwner := 0
  layerBackends := [none, some 1, some 1, none, some 1]
  backends := fun _ => ⟨true, true, true⟩
  mixedBackendMode := true
  hybridRecurrent := false
  hasVariableLayerDims := true
  nLayerKvFromStart := 3
  isGlobalLayer := fun li => li == 2 || li == 4
  kvLayerGlobal := 2
  kvLayerSwa := 1
  rowsShift := fun _ => true

theorem twoBackends_shares : twoBackends.Shares := ⟨by decide, by decide⟩

def allWell : KvAnswers where
  put := fun _ _ => true
  putBatch := fun _ => true
  stage := fun _ _ => true
  exported := .ok
  imported := fun _ => .ok

/-- The second row of layer 1, two rows of layer 2, and a shift that moves second rows to the front. -/
def twoBackendsOps : List (KvOp ℕ) :=
  [.put 1 1 ⟨fun _ => 5, some 1, some 1⟩ allWell,
    .putBatch 2 0 2 ⟨fun i => 7 + i, some 1, some 1⟩ allWell,
    .shift [⟨1, 0, 1⟩] fun _ _ => true]

def moveRows (_ : ℕ) (chunks : List KvShiftChunk) (rows : ℕ → Option ℕ) (pos : ℕ) : Option ℕ :=
  match chunks.find? fun k => k.dst ≤ pos && pos < k.dst + k.n with
  | some k => rows (k.src + (pos - k.dst))
  | none => rows pos

theorem twoBackends_fresh :
    ∃ c, kvcacheSetup twoBackends = some c ∧
      ∃ rows, twoBackendsOps.foldlM (kvApply moveRows c twoBackends 4) (fun _ _ _ => none) =
          some rows ∧
        c.attnView twoBackends 3 1 = (0, 1) ∧ rows 0 1 0 = some 5 ∧
        c.attnView twoBackends 4 2 = (1, 1) ∧ rows 1 1 0 = some 8 := by
  obtain ⟨c, hc⟩ := Option.isSome_iff_exists.mp
    (show (kvcacheSetup twoBackends).isSome = true by decide +kernel)
  have hrun : ((kvcacheSetup twoBackends).bind fun c => twoBackendsOps.foldlM
      (kvApply moveRows c twoBackends 4) (fun _ _ _ => none)).isSome = true := by decide +kernel
  have hview : (kvcacheSetup twoBackends).map (fun c =>
      (c.attnView twoBackends 3 1, c.attnView twoBackends 4 2)) = some ((0, 1), (1, 1)) := by
    decide +kernel
  rw [hc] at hrun hview
  obtain ⟨rows, hrows⟩ := Option.isSome_iff_exists.mp hrun
  obtain ⟨h3, h4⟩ := Prod.mk.inj (Option.some.inj hview)
  have hfresh := (kvMirrors_fresh twoBackends_shares hc hrows).1
  refine ⟨c, hc, rows, hrows, h3, ?_, h4, ?_⟩
  · have := congrFun (hfresh 3 (by decide)).2.2 0
    rw [show (twoBackends.layerKvLayer 3).toNat = 1 by decide, h3] at this
    exact this.trans (by decide +kernel)
  · have := congrFun (hfresh 4 (by decide)).2.2 0
    rw [show (twoBackends.layerKvLayer 4).toNat = 2 by decide, h4] at this
    exact this.trans (by decide +kernel)

end Kappai
