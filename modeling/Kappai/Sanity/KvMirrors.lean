import Kappai.Lib.Loop
import Kappai.Spec.KvMirrors

/-! How the layers are laid out over the devices: the slots of a device are numbered in the order of
the layers, and every device with a layer that reads a slot holds it. -/

namespace Kappai

/-- A table of slots made for the first `n` layers. -/
structure Ranked (devices : ℕ → ℕ) (dev n : ℕ) (r : (ℕ → Option ℕ) × ℕ) : Prop where
  mapped : ∀ i, (r.1 i).isSome ↔ i < n ∧ (devices i).testBit dev = true
  lt : ∀ i k, r.1 i = some k → k < r.2 ∧ k ≤ i
  inj : ∀ i j k, r.1 i = some k → r.1 j = some k → i = j
  le : r.2 ≤ n

theorem Ranked.succ {devices : ℕ → ℕ} {dev n : ℕ} {r : (ℕ → Option ℕ) × ℕ}
    (h : Ranked devices dev n r) (hbit : (devices n).testBit dev = true) :
    Ranked devices dev (n + 1) (Function.update r.1 n (some r.2), r.2 + 1) where
  mapped := fun i => by
    rcases eq_or_ne i n with rfl | hne
    · simp [hbit]
    · simp only [Function.update_of_ne hne, h.mapped]
      exact and_congr_left fun _ => by omega
  lt := fun i k hi => by
    rcases eq_or_ne i n with rfl | hne
    · simp only [Function.update_self, Option.some.injEq] at hi
      subst hi
      exact ⟨Nat.lt_succ_self _, h.le⟩
    · simp only [Function.update_of_ne hne] at hi
      exact ⟨Nat.lt_succ_of_lt (h.lt i k hi).1, (h.lt i k hi).2⟩
  inj := fun i j k hi hj => by
    rcases eq_or_ne i n with rfl | hin
    · rcases eq_or_ne j i with rfl | hji
      · rfl
      · simp only [Function.update_self, Option.some.injEq] at hi
        simp only [Function.update_of_ne hji] at hj
        exact absurd (h.lt j k hj).1 (by omega)
    · simp only [Function.update_of_ne hin] at hi
      rcases eq_or_ne j n with rfl | hjn
      · simp only [Function.update_self, Option.some.injEq] at hj
        exact absurd (h.lt i k hi).1 (by omega)
      · simp only [Function.update_of_ne hjn] at hj
        exact h.inj i j k hi hj
  le := Nat.succ_le_succ h.le

theorem Ranked.skip {devices : ℕ → ℕ} {dev n : ℕ} {r : (ℕ → Option ℕ) × ℕ}
    (h : Ranked devices dev n r) (hbit : ¬(devices n).testBit dev = true) :
    Ranked devices dev (n + 1) r where
  mapped := fun i => by
    rw [h.mapped]
    refine and_congr_left fun hi => ⟨Nat.lt_succ_of_lt, fun hlt => ?_⟩
    exact lt_of_le_of_ne (Nat.le_of_lt_succ hlt) fun heq => hbit (heq ▸ hi)
  lt := h.lt
  inj := h.inj
  le := Nat.le_succ_of_le h.le

theorem kvcacheSlotRemap_ranked (n : ℕ) (devices : ℕ → ℕ) (dev : ℕ) :
    Ranked devices dev n (kvcacheSlotRemap n devices dev) := by
  induction n with
  | zero => exact ⟨by simp [kvcacheSlotRemap], by simp [kvcacheSlotRemap],
      by simp [kvcacheSlotRemap], Nat.le_refl 0⟩
  | succ n ih =>
    unfold kvcacheSlotRemap
    rw [List.range_succ, List.foldl_append, List.foldl_cons, List.foldl_nil]
    split_ifs with hbit
    · exact ih.succ hbit
    · exact ih.skip hbit

/-! ### Which device holds which slot -/

section

variable {m : KvModel} {mirrors : List ℕ} {b dev : ℕ}

theorem deviceOf_append (h : kvcacheDeviceOf m mirrors b = some dev) (bs : List ℕ) :
    kvcacheDeviceOf m (mirrors ++ bs) b = some dev := by
  unfold kvcacheDeviceOf at h ⊢
  split_ifs at h ⊢ with hb
  · exact h
  · obtain ⟨i, hi, rfl⟩ := Option.map_eq_some_iff.mp h
    rw [List.idxOf?, List.findIdx?_append, ← List.idxOf?, hi]
    rfl

theorem deviceOf_le (h : kvcacheDeviceOf m mirrors b = some dev) : dev ≤ mirrors.length := by
  unfold kvcacheDeviceOf at h
  split_ifs at h with hb
  · obtain rfl := Option.some.inj h
    exact Nat.zero_le _
  · obtain ⟨i, hi, rfl⟩ := Option.map_eq_some_iff.mp h
    exact (List.findIdx?_eq_some_iff_getElem.mp hi).1

/-- A registered device is the one that is found from then on. -/
theorem register_spec {r : List ℕ × ℕ} (h : kvcacheRegisterDevice m mirrors b = some r) :
    (∃ bs, r.1 = mirrors ++ bs) ∧ kvcacheDeviceOf m r.1 b = some r.2 := by
  unfold kvcacheRegisterDevice at h
  cases hdev : kvcacheDeviceOf m mirrors b with
  | some dev =>
    rw [hdev] at h
    obtain rfl := Option.some.inj h
    exact ⟨⟨[], (List.append_nil _).symm⟩, hdev⟩
  | none =>
    rw [hdev] at h
    dsimp only at h
    split_ifs at h with hfull
    obtain rfl := Option.some.inj h
    refine ⟨⟨[b], rfl⟩, ?_⟩
    unfold kvcacheDeviceOf at hdev ⊢
    split_ifs at hdev ⊢ with hb
    have hnone : List.idxOf? b mirrors = none := Option.map_eq_none_iff.mp hdev
    rw [List.idxOf?, List.findIdx?_append, ← List.idxOf?, hnone]
    simp

end

theorem testBit_addSlotDevice (devices : ℕ → ℕ) (slot dev s d : ℕ) :
    ((addSlotDevice devices slot dev s).testBit d = true) ↔
      (devices s).testBit d = true ∨ (s = slot ∧ d = dev) := by
  unfold addSlotDevice
  rw [Function.update_apply, Nat.one_shiftLeft]
  split_ifs with hs
  · subst hs
    rw [Nat.testBit_or, Bool.or_eq_true, Nat.testBit_two_pow, decide_eq_true_eq, eq_comm (a := dev)]
    simp
  · simp [hs]

/-- The layers below `n` are mapped: each device that was found is found again, holds the slot that
its layers read, and their own; nothing else is held. -/
structure Mapped (m : KvModel) (n : ℕ) (s : List ℕ × (ℕ → ℕ)) : Prop where
  found : ∀ i < n, ∃ dev, kvcacheDeviceOf m s.1 (m.layerBackend i) = some dev ∧
    (m.layerKvLayer i < m.nLayers → (s.2 (m.layerKvLayer i).toNat).testBit dev = true) ∧
    (i < m.nKvLayers → (s.2 i).testBit dev = true)
  bounded : ∀ slot d, (s.2 slot).testBit d = true → d ≤ s.1.length ∧ slot < m.nKvLayers

section

variable {m : KvModel} (hm : m.Shares)

include hm

/-- A layer reads the slot of a layer with K and V of its own. -/
theorem KvModel.Shares.kvLayer {i : ℕ} (hi : i < m.nLayers) :
    0 ≤ m.layerKvLayer i ∧ (m.layerKvLayer i).toNat < m.nLayers ∧
      (m.layerKvLayer i).toNat < m.nKvLayers := by
  cases hkv : m.layerHasKv i with
  | false =>
    obtain ⟨h0, hlt, hn⟩ := hm.target i hi hkv
    refine ⟨h0, by omega, ?_⟩
    unfold KvModel.nKvLayers
    rw [if_pos (by omega)]
    omega
  | true =>
    have hself : m.layerKvLayer i = i := by rw [KvModel.layerKvLayer, if_pos hkv]
    rw [hself, Int.toNat_natCast]
    refine ⟨Int.natCast_nonneg i, hi, ?_⟩
    unfold KvModel.nKvLayers
    split_ifs with hpos
    · unfold KvModel.layerHasKv at hkv
      cases hvar : m.hasVariableLayerDims with
      | false =>
        rw [hm.uniform hvar] at hpos
        omega
      | true =>
        rw [hvar, if_neg (by simp), if_neg (by omega), decide_eq_true_eq] at hkv
        omega
    · exact hi

theorem Mapped.step {n : ℕ} (hn : n < m.nLayers) {s s' : List ℕ × (ℕ → ℕ)} (h : Mapped m n s)
    (hstep : mapSlot m s n = some s') : Mapped m (n + 1) s' := by
  obtain ⟨r, hr, rfl⟩ := Option.map_eq_some_iff.mp hstep
  obtain ⟨⟨bs, hbs⟩, hfound⟩ := register_spec hr
  have hslot := hm.kvLayer hn
  have hdevices : (if 0 ≤ m.layerKvLayer n ∧ m.layerKvLayer n < m.nLayers then
      addSlotDevice s.2 (m.layerKvLayer n).toNat r.2 else s.2) =
        addSlotDevice s.2 (m.layerKvLayer n).toNat r.2 := if_pos ⟨hslot.1, by omega⟩
  dsimp only
  rw [hdevices]
  have hbits : ∀ slot d, ((if n < m.nKvLayers then
      addSlotDevice (addSlotDevice s.2 (m.layerKvLayer n).toNat r.2) n r.2
        else addSlotDevice s.2 (m.layerKvLayer n).toNat r.2) slot).testBit d = true ↔
          (s.2 slot).testBit d = true ∨
            (d = r.2 ∧ (slot = (m.layerKvLayer n).toNat ∨ (slot = n ∧ n < m.nKvLayers))) := by
    intro slot d
    split_ifs with hlt
    · rw [testBit_addSlotDevice, testBit_addSlotDevice]
      tauto
    · rw [testBit_addSlotDevice]
      tauto
  have hle := deviceOf_le hfound
  refine ⟨fun i hi => ?_, fun slot d hd => ?_⟩
  · rcases Nat.lt_succ_iff_lt_or_eq.mp hi with hlt | rfl
    · obtain ⟨dev, hdev, hread, hown⟩ := h.found i hlt
      refine ⟨dev, ?_, fun hk => (hbits _ _).mpr (Or.inl (hread hk)),
        fun hk => (hbits _ _).mpr (Or.inl (hown hk))⟩
      rw [hbs]
      exact deviceOf_append hdev bs
    · exact ⟨r.2, hfound, fun _ => (hbits _ _).mpr (Or.inr ⟨rfl, Or.inl rfl⟩),
        fun hk => (hbits _ _).mpr (Or.inr ⟨rfl, Or.inr ⟨rfl, hk⟩⟩)⟩
  · rcases (hbits slot d).mp hd with hold | ⟨rfl, hnew⟩
    · obtain ⟨hlen, hlt⟩ := h.bounded slot d hold
      refine ⟨?_, hlt⟩
      rw [hbs, List.length_append]
      omega
    · refine ⟨hle, ?_⟩
      rcases hnew with rfl | ⟨rfl, hlt⟩
      · exact hslot.2.2
      · exact hlt

theorem kvcacheMapSlots_mapped {s : List ℕ × (ℕ → ℕ)} (h : kvcacheMapSlots m = some s) :
    Mapped m m.nLayers s := by
  have hstart : Mapped m 0 (([] : List ℕ), fun _ => 0) :=
    ⟨fun i hi => absurd hi (Nat.not_lt_zero i), fun slot d hd => by simp at hd⟩
  exact foldlM_range_inv (I := Mapped m) (fun k hk s s' hs hstep => hs.step hm hk hstep) hstart h

end

/-! ### The slots of a set-up cache -/

/-- The tables of a cache that is set up, as far as the puts, the shifts and the readers rely on them. -/
structure LaidOut (m : KvModel) (c : KvLayout) : Prop where
  nKvLayers : c.nKvLayers = m.nKvLayers
  reads : ∀ i < m.nLayers, (c.slotMask m (m.layerKvLayer i).toNat).testBit (c.layerDevice m i) = true
  owns : ∀ l < m.nLayers, l < m.nKvLayers → (c.slotMask m l).testBit (c.layerDevice m l) = true
  known : ∀ l d, (c.slotMask m l).testBit d = true → d < c.mirrors.length + 1
  held : ∀ l < m.nLayers, l < m.nKvLayers → ∀ d, (c.slotMask m l).testBit d = true →
    (c.deviceView m d l).2 = true ∧ (c.deviceView m d l).1 < c.deviceSlots d
  /-- The slot of a layer is no other's, whether that one is mapped or not. -/
  apart : ∀ l < m.nLayers, l < m.nKvLayers → ∀ d, (c.slotMask m l).testBit d = true → ∀ l' ≠ l,
    (c.slotMask m l').testBit d = true ∨ m.nKvLayers ≤ l' ∨ m.nLayers ≤ l' →
      (c.deviceView m d l').1 ≠ (c.deviceView m d l).1

/-- Without a table a slot is the number of its layer. -/
theorem primary_raw {m : KvModel} {c : KvLayout} (h : c.primary = none) (l : ℕ) :
    c.deviceView m 0 l = (l, true) := by
  simp only [KvLayout.deviceView, h]

/-- One backend holds every layer. -/
theorem laidOut_single (m : KvModel) : LaidOut m ⟨m.nKvLayers, [], none, none⟩ := by
  have hbit : ∀ d, (1 : ℕ).testBit d = true ↔ d = 0 := fun d => by
    rw [show (1 : ℕ) = 2 ^ 0 from rfl, Nat.testBit_two_pow, decide_eq_true_eq, eq_comm]
  have hdev : ∀ i, KvLayout.layerDevice ⟨m.nKvLayers, [], none, none⟩ m i = 0 := fun i => by
    unfold KvLayout.layerDevice kvcacheDeviceOf
    split_ifs <;> rfl
  refine ⟨rfl, fun i hi => ?_, fun l hl hk => ?_, fun l d hd => ?_, fun l hl hk d hd => ?_,
    fun l hl hk d hd l' hne _ => ?_⟩
  · rw [hdev]
    exact (hbit 0).mpr rfl
  · rw [hdev]
    exact (hbit 0).mpr rfl
  · obtain rfl := (hbit d).mp hd
    exact Nat.one_pos
  · obtain rfl := (hbit d).mp hd
    exact ⟨rfl, hk⟩
  · obtain rfl := (hbit d).mp hd
    exact hne

/-- The view of a device with a table. -/
theorem Ranked.view {devices : ℕ → ℕ} {dev n : ℕ} {r : (ℕ → Option ℕ) × ℕ}
    (h : Ranked devices dev n r) {l : ℕ} (hl : l < n) (hbit : (devices l).testBit dev = true) :
    (r.1 l).isSome = true ∧ (r.1 l).getD l < r.2 ∧ (r.1 l).getD l ≤ l := by
  have hsome := (h.mapped l).mpr ⟨hl, hbit⟩
  obtain ⟨k, hk⟩ := Option.isSome_iff_exists.mp hsome
  rw [hk]
  exact ⟨rfl, h.lt l k hk⟩

/-- Slots are told apart: those of mapped layers by their numbers, and the others are behind them. -/
theorem Ranked.apart {devices : ℕ → ℕ} {dev n : ℕ} {r : (ℕ → Option ℕ) × ℕ}
    (h : Ranked devices dev n r) {l l' : ℕ} (hl : l < n) (hbit : (devices l).testBit dev = true)
    (hne : l' ≠ l) (hl' : l' < n) (hcase : (devices l').testBit dev = true ∨ l < l') :
    (r.1 l').getD l' ≠ (r.1 l).getD l := by
  obtain ⟨k, hk⟩ := Option.isSome_iff_exists.mp ((h.mapped l).mpr ⟨hl, hbit⟩)
  cases hk' : r.1 l' with
  | none =>
    rcases hcase with hbit' | hlt
    · have hsome := (h.mapped l').mpr ⟨hl', hbit'⟩
      rw [hk'] at hsome
      cases hsome
    · rw [hk]
      have := (h.lt l k hk).2
      simp only [Option.getD_none, Option.getD_some]
      omega
  | some k' =>
    rw [hk]
    intro heq
    rw [Option.getD_some, Option.getD_some] at heq
    exact hne (h.inj l' l k (heq ▸ hk') hk)

/-- The tables of several devices, made from the same map of slots. -/
structure Tabled (m : KvModel) (mirrors : List ℕ) (devices : ℕ → ℕ) (c : KvLayout) : Prop where
  nKvLayers : c.nKvLayers = m.nKvLayers
  backends : c.mirrors.map KvMirror.be = mirrors
  slotDevices : c.slotDevices = some devices
  primary : c.primary = none ∨ c.primary = some (kvcacheSlotRemap m.nLayers devices 0)
  remap : ∀ i < mirrors.length, ∃ mir, c.mirrors[i]? = some mir ∧
    (mir.remap, mir.nSlots) = kvcacheSlotRemap m.nLayers devices (i + 1)

theorem kvcacheSetup_tabled {m : KvModel} {c : KvLayout} (hmixed : m.mixedBackendMode = true)
    (h : kvcacheSetup m = some c) :
    ∃ s, kvcacheMapSlots m = some s ∧ Tabled m s.1 s.2 c := by
  unfold kvcacheSetup at h
  rw [if_pos hmixed] at h
  obtain ⟨s, hs, hc⟩ := Option.bind_eq_some_iff.mp h
  refine ⟨s, hs, ?_⟩
  dsimp only at hc
  split_ifs at hc with hempty hheld
  all_goals
    obtain rfl := Option.some.inj hc
    refine ⟨rfl, ?_, rfl, ?_, fun i hi => ?_⟩
    · rw [List.map_map]
      exact List.zipIdx_map_fst 0 s.1
    · simp
    · exact ⟨⟨s.1[i], (kvcacheSlotRemap m.nLayers s.2 (i + 1)).1,
        (kvcacheSlotRemap m.nLayers s.2 (i + 1)).2⟩, by simp [hi], rfl⟩

theorem Tabled.laidOut {m : KvModel} (hm : m.Shares) {s : List ℕ × (ℕ → ℕ)} {c : KvLayout}
    (hmap : Mapped m m.nLayers s) (h : Tabled m s.1 s.2 c) : LaidOut m c := by
  have hmask : ∀ l < m.nLayers, c.slotMask m l = s.2 l := fun l hl => by
    simp only [KvLayout.slotMask, h.slotDevices, if_pos hl]
  have hlen : c.mirrors.length = s.1.length := by rw [← h.backends, List.length_map]
  have hdev : ∀ i < m.nLayers, (s.2 (m.layerKvLayer i).toNat).testBit (c.layerDevice m i) = true ∧
      (i < m.nKvLayers → (s.2 i).testBit (c.layerDevice m i) = true) := fun i hi => by
    obtain ⟨dev, hdev, hread, hown⟩ := hmap.found i hi
    have heq : c.layerDevice m i = dev := by
      rw [KvLayout.layerDevice, h.backends, hdev, Option.getD_some]
    rw [heq]
    have hkv := hm.kvLayer hi
    exact ⟨hread (by omega), hown⟩
  -- a device that holds a slot has numbered it, or goes by the numbers of the layers
  have hview : ∀ l < m.nLayers, l < m.nKvLayers → ∀ d, (s.2 l).testBit d = true →
      ((c.deviceView m d l).2 = true ∧ (c.deviceView m d l).1 < c.deviceSlots d) ∧
      ∀ l' ≠ l, (c.slotMask m l').testBit d = true ∨ m.nKvLayers ≤ l' ∨ m.nLayers ≤ l' →
        (c.deviceView m d l').1 ≠ (c.deviceView m d l).1 := by
    intro l hl hk d hd
    have hbehind : ∀ l', (c.slotMask m l').testBit d = true ∨ m.nKvLayers ≤ l' ∨ m.nLayers ≤ l' →
        l' < m.nLayers → (s.2 l').testBit d = true ∨ l < l' := fun l' hcase hl' => by
      rw [hmask l' hl'] at hcase
      exact hcase.imp_right fun hge => by omega
    have hranked := kvcacheSlotRemap_ranked m.nLayers s.2 d
    have hslot := hranked.view hl hd
    have hapart := fun l' (hne : l' ≠ l) => hranked.apart hl hd hne
    cases d with
    | zero =>
      rcases h.primary with hnone | hsome
      · rw [primary_raw hnone]
        refine ⟨⟨rfl, ?_⟩, fun l' hne _ => ?_⟩
        · rw [KvLayout.deviceSlots, hnone, h.nKvLayers]
          exact hk
        · rw [primary_raw hnone]
          exact hne
      · have hprim : ∀ l', (c.deviceView m 0 l') = if l' < m.nLayers then
            (((kvcacheSlotRemap m.nLayers s.2 0).1 l').getD l',
              ((kvcacheSlotRemap m.nLayers s.2 0).1 l').isSome) else (l', true) := fun l' => by
          simp only [KvLayout.deviceView, hsome]
        rw [hprim, if_pos hl, KvLayout.deviceSlots, hsome]
        refine ⟨⟨hslot.1, hslot.2.1⟩, fun l' hne hcase => ?_⟩
        rw [hprim]
        split_ifs with hl'
        · exact hapart l' hne hl' (hbehind l' hcase hl')
        · have := hslot.2.2
          dsimp only
          omega
    | succ i =>
      have hi : i < s.1.length := Nat.lt_of_succ_le (hmap.bounded l (i + 1) hd).1
      obtain ⟨mir, hmir, htable⟩ := h.remap i hi
      have hremap : mir.remap = (kvcacheSlotRemap m.nLayers s.2 (i + 1)).1 := congrArg Prod.fst htable
      have hslots : mir.nSlots = (kvcacheSlotRemap m.nLayers s.2 (i + 1)).2 := congrArg Prod.snd htable
      have hview : ∀ l', (c.deviceView m (i + 1) l').1 = if l' < m.nLayers then
          ((kvcacheSlotRemap m.nLayers s.2 (i + 1)).1 l').getD l' else l' := fun l' => by
        simp only [KvLayout.deviceView, hmir, Option.bind_some, hremap]
        split_ifs <;> rfl
      refine ⟨⟨?_, ?_⟩, fun l' hne hcase => ?_⟩
      · simp only [KvLayout.deviceView, hmir, Option.bind_some, if_pos hl, hremap, hslot.1]
      · rw [hview, if_pos hl, KvLayout.deviceSlots, hmir, Option.map_some, Option.getD_some]
        rw [hslots]
        exact hslot.2.1
      · rw [hview, hview, if_pos hl]
        split_ifs with hl'
        · exact hapart l' hne hl' (hbehind l' hcase hl')
        · have := hslot.2.2
          omega
  refine ⟨h.nKvLayers, fun i hi => ?_, fun l hl hk => ?_, fun l d hd => ?_, fun l hl hk d hd => ?_,
    fun l hl hk d hd => ?_⟩
  · rw [hmask _ (hm.kvLayer hi).2.1]
    exact (hdev i hi).1
  · rw [hmask l hl]
    exact (hdev l hl).2 hk
  · rw [hlen]
    unfold KvLayout.slotMask at hd
    rw [h.slotDevices] at hd
    dsimp only at hd
    split_ifs at hd with hl
    · exact Nat.lt_succ_of_le (hmap.bounded l d hd).1
    · rw [show (1 : ℕ) = 2 ^ 0 from rfl, Nat.testBit_two_pow, decide_eq_true_eq] at hd
      omega
  · rw [hmask l hl] at hd
    exact (hview l hl hk d hd).1
  · rw [hmask l hl] at hd
    exact (hview l hl hk d hd).2

theorem kvcacheSetup_laidOut {m : KvModel} (hm : m.Shares) {c : KvLayout}
    (h : kvcacheSetup m = some c) : LaidOut m c := by
  cases hmixed : m.mixedBackendMode with
  | true =>
    obtain ⟨s, hs, htab⟩ := kvcacheSetup_tabled hmixed h
    exact htab.laidOut hm (kvcacheMapSlots_mapped hm hs)
  | false =>
    unfold kvcacheSetup at h
    rw [hmixed, if_neg (by simp)] at h
    obtain rfl := Option.some.inj h
    exact laidOut_single m

end Kappai
