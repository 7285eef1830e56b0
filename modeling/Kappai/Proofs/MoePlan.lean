import Kappai.Proofs.HcsCounts
import Kappai.Spec.MoePlan
import Mathlib.Data.List.Nodup
import Mathlib.Data.List.Perm.Subperm

/-! Where the pins of an accepted configuration go, and what room the device tier takes. -/

namespace Kappai

variable {B : Type*}

namespace PinTable

variable {t t' : PinTable B} {n : ℕ} {be : Option B}

/-- The experts in use are those of the pins, which are different experts of the model. -/
structure Ok (n : ℕ) (t : PinTable B) : Prop where
  used : ∀ e, t.used e = true ↔ e ∈ t.pins.map (·.1)
  nodup : (t.pins.map (·.1)).Nodup
  lt : ∀ e ∈ t.pins.map (·.1), e < n

theorem Ok.empty (n : ℕ) : (empty : PinTable B).Ok n := ⟨by simp [PinTable.empty], List.nodup_nil, by simp [PinTable.empty]⟩

theorem Ok.push (ht : t.Ok n) {e : ℕ} (hfree : t.used e = false) (hlt : e < n) (be : Option B) :
    (t.push e be).Ok n := by
  have hnew : e ∉ t.pins.map (·.1) := fun hmem => by simp [(ht.used e).2 hmem] at hfree
  refine ⟨fun x => ?_, ?_, fun x hx => ?_⟩
  · simp only [PinTable.push, Function.update_apply, List.map_append, List.mem_append, List.map_cons,
      List.map_nil, List.mem_singleton]
    split_ifs with hx
    · simp [hx]
    · simp [hx, ht.used x]
  · simp only [PinTable.push, List.map_append, List.map_cons, List.map_nil]
    exact ht.nodup.append (List.nodup_singleton e) (List.disjoint_singleton.2 hnew)
  · simp only [PinTable.push, List.map_append, List.mem_append, List.map_cons, List.map_nil,
      List.mem_singleton] at hx
    rcases hx with hx | rfl
    · exact ht.lt x hx
    · exact hlt

/-- More pins are put behind those that are there. -/
theorem Ok.fill (ht : t.Ok n) (be : Option B) (k : ℕ) :
    (PinTable.fill n be k t).Ok n ∧ t.pins <+: (PinTable.fill n be k t).pins := by
  induction k generalizing t with
  | zero => exact ⟨ht, List.prefix_refl _⟩
  | succ k ih =>
    unfold PinTable.fill
    split
    · exact ⟨⟨ht.used, ht.nodup, ht.lt⟩, List.prefix_refl _⟩
    · next e hfind =>
      have hfree : t.used e = false := by simpa using List.find?_some hfind
      have hlt : e < n := by
        have hmem := List.mem_range'_1.1 (List.mem_of_find?_eq_some hfind)
        omega
      have hpush := ht.push hfree hlt be
      obtain ⟨hok, hpre⟩ := ih (t := { t.push e be with seq := e + 1 }) ⟨hpush.used, hpush.nodup, hpush.lt⟩
      exact ⟨hok, (List.prefix_append _ _).trans hpre⟩

/-- The listed pins: each is put behind the others if it is an expert that is not in use. -/
theorem Ok.pins (ht : t.Ok n) {listed : List (ℤ × Option B)} (hnodup : (listed.map (·.1)).Nodup)
    (hlt : ∀ r ∈ listed, 0 ≤ r.1 ∧ r.1 < n) (hfree : ∀ r ∈ listed, t.used r.1.toNat = false) :
    ∃ t' : PinTable B, listed.foldlM (fun t r => PinTable.pin n r.2 t r.1) t = .ok t' ∧ t'.Ok n ∧
      t'.pins = t.pins ++ listed.map fun r => (r.1.toNat, r.2) := by
  induction listed generalizing t with
  | nil => exact ⟨t, rfl, ht, (List.append_nil _).symm⟩
  | cons r listed ih =>
    obtain ⟨hr, hnodup⟩ := List.nodup_cons.1 hnodup
    have hbound := hlt r List.mem_cons_self
    have hunused := hfree r List.mem_cons_self
    have hpush := ht.push (e := r.1.toNat) hunused (by omega) r.2
    obtain ⟨t', hfold, hok, hpins⟩ := ih hpush hnodup (fun x hx => hlt x (List.mem_cons_of_mem _ hx)) (by
      intro x hx
      have hx' := hlt x (List.mem_cons_of_mem _ hx)
      have hne : x.1.toNat ≠ r.1.toNat := by
        intro heq
        have hsame : x.1 = r.1 := by omega
        exact hr (List.mem_map.2 ⟨x, hx, hsame⟩)
      exact (Function.update_of_ne hne _ _).trans (hfree x (List.mem_cons_of_mem _ hx)))
    refine ⟨t', ?_, hok, ?_⟩
    · rw [List.foldlM_cons, PinTable.pin, if_neg (by omega), if_neg (by simp [hunused])]
      exact hfold
    · rw [hpins]
      simp [PinTable.push]

/-- A negative pin is refused. -/
theorem pins_negative {listed : List (ℤ × Option B)} (hneg : ∃ r ∈ listed, r.1 < 0) (t : PinTable B) :
    ∃ e, listed.foldlM (fun t r => PinTable.pin n r.2 t r.1) t = .error e := by
  induction listed generalizing t with
  | nil => simp at hneg
  | cons r listed ih =>
    rw [List.foldlM_cons]
    cases hpin : PinTable.pin n r.2 t r.1 with
    | error e => exact ⟨e, rfl⟩
    | ok t' =>
      have hr : ¬r.1 < 0 := by
        intro hlt
        rw [PinTable.pin, if_pos (Or.inl hlt)] at hpin
        cases hpin
      obtain ⟨x, hx, hlt⟩ := hneg
      rcases List.mem_cons.1 hx with rfl | hx
      · exact absurd hlt hr
      · exact ih ⟨x, hx, hlt⟩ t'

end PinTable

/-! ### What is accepted of the pins -/

namespace HcsConfig

variable {h : HcsConfig} {n : ℕ}

/-- The pins of all devices. -/
def allPins (h : HcsConfig) : List ℤ := h.devices.flatMap (·.pinIds)

/-- Accepted pins are all different and below the number of experts; they may be negative. -/
theorem checkPinRules_nil (hn : 0 < n) (hc : h.checkPinRules n = []) :
    h.allPins.Nodup ∧ ∀ e ∈ h.allPins, e < n := by
  simp only [checkPinRules, List.flatMap_eq_nil_iff] at hc
  have hpin : ∀ i (hi : i < h.devices.length) k (hk : k < h.devices[i].pinIds.length),
      checkPin h.devices[i].name n ((h.devices.take i).map fun d => (d.name, d.pinIds))
        h.devices[i].pinIds k (h.devices[i].pinIds[k]) = [] := by
    intro i hi k hk
    have hdev : (h.devices[i], i) ∈ h.devices.zipIdx := by
      rw [List.mem_iff_getElem]
      exact ⟨i, by simpa using hi, by simp⟩
    have hid : (h.devices[i].pinIds[k], k) ∈ h.devices[i].pinIds.zipIdx := by
      rw [List.mem_iff_getElem]
      exact ⟨k, by simpa using hk, by simp⟩
    have hnil := hc _ hdev _ hid
    dsimp only at hnil
    exact hnil
  have hsame : ∀ i (hi : i < h.devices.length) k (hk : k < h.devices[i].pinIds.length),
      h.devices[i].pinIds[k] ∉ h.devices[i].pinIds.take k := by
    intro i hi k hk hmem
    have hnil := (List.append_eq_nil_iff.1 (hpin i hi k hk)).1
    have hfilter := List.filter_eq_nil_iff.1 (List.map_eq_nil_iff.1 hnil) _ hmem
    simp at hfilter
  have hrange : ∀ i (hi : i < h.devices.length) k (hk : k < h.devices[i].pinIds.length),
      h.devices[i].pinIds[k] < n := by
    intro i hi k hk
    have hnil := (List.append_eq_nil_iff.1 (hpin i hi k hk)).2
    by_contra hge
    rw [if_pos ⟨hn, by omega⟩] at hnil
    cases hnil
  have hother : ∀ i (hi : i < h.devices.length) k (hk : k < h.devices[i].pinIds.length),
      ∀ d ∈ h.devices.take i, h.devices[i].pinIds[k] ∉ d.pinIds := by
    intro i hi k hk d hd hmem
    have hnil := (List.append_eq_nil_iff.1 (hpin i hi k hk)).2
    have hlt := hrange i hi k hk
    rw [if_neg (by omega)] at hnil
    have hbefore := List.flatMap_eq_nil_iff.1 hnil (d.name, d.pinIds) (List.mem_map.2 ⟨d, hd, rfl⟩)
    have hfilter := List.filter_eq_nil_iff.1 (List.map_eq_nil_iff.1 hbefore) _ hmem
    simp at hfilter
  refine ⟨List.nodup_flatMap.2 ⟨fun d hd => ?_, ?_⟩, fun e he => ?_⟩
  · obtain ⟨i, hi, rfl⟩ := List.mem_iff_getElem.1 hd
    refine List.pairwise_iff_getElem.2 fun j k hj hk hjk heq => ?_
    refine hsame i hi k hk ?_
    rw [← heq]
    exact List.mem_take_iff_getElem.2 ⟨j, by omega, rfl⟩
  · refine List.pairwise_iff_getElem.2 fun i j hi hj hij e hei hej => ?_
    obtain ⟨k, hk, rfl⟩ := List.mem_iff_getElem.1 hej
    exact hother j hj k hk _ (List.mem_take_iff_getElem.2 ⟨i, by omega, rfl⟩) hei
  · obtain ⟨d, hd, hed⟩ := List.mem_flatMap.1 he
    obtain ⟨i, hi, rfl⟩ := List.mem_iff_getElem.1 hd
    obtain ⟨k, hk, rfl⟩ := List.mem_iff_getElem.1 hed
    exact hrange i hi k hk

end HcsConfig

/-! ### The plan -/

namespace MoePlanRequest

variable {rq : MoePlanRequest} {mc : MoeMachine B} {parts : List (MoePart B)}

theorem counts_le (rq : MoePlanRequest) (mc : MoeMachine B) (parts : List (MoePart B)) :
    (rq.counts mc parts).1 + (rq.counts mc parts).2 ≤ rq.nExperts := by
  have hfold : ∀ (l : List (MoePart B × ℕ)) (acc : ℕ × ℕ), acc.1 ≤ rq.nExperts →
      (l.foldl (rq.countTurn mc parts) acc).1 ≤ rq.nExperts := by
    intro l
    induction l with
    | nil => exact fun acc hacc => hacc
    | cons r l ih =>
      refine fun acc hacc => ih _ ?_
      unfold countTurn
      split_ifs
      · exact hacc
      · dsimp only
        omega
      · exact hacc
  have hdev := hfold parts.zipIdx (0, 0) (Nat.zero_le _)
  unfold counts
  dsimp only
  omega

/-- What is pinned in memory is not more than what the devices leave to the host. -/
theorem hostCounts_le {pinHost lruNeed : ℕ} (hc : rq.hostCounts mc parts = .ok (pinHost, lruNeed)) :
    (rq.counts mc parts).1 + pinHost ≤ rq.nExperts := by
  have hle := rq.counts_le mc parts
  unfold hostCounts at hc
  dsimp only at hc
  split_ifs at hc
  all_goals
    obtain ⟨rfl, -⟩ := Prod.mk.inj (Except.ok.inj hc)
    omega

/-- The pins that fill up the shares keep the listed ones in their places. -/
theorem fills_ok (mc : MoeMachine B) {t : PinTable B} {n : ℕ} (ht : t.Ok n) (l : List (MoePart B × ℕ)) :
    (l.foldl (fun t r => PinTable.fill n (r.1.holder mc) (r.2 - r.1.listed.length) t) t).Ok n ∧
      t.pins <+: (l.foldl (fun t r => PinTable.fill n (r.1.holder mc) (r.2 - r.1.listed.length) t) t).pins := by
  induction l generalizing t with
  | nil => exact ⟨ht, List.prefix_refl _⟩
  | cons r l ih =>
    obtain ⟨hok, hpre⟩ := ht.fill (r.1.holder mc) (r.2 - r.1.listed.length)
    obtain ⟨hok', hpre'⟩ := ih hok
    exact ⟨hok', hpre.trans hpre'⟩

theorem planPins_ok (hnodup : ((allListed mc parts).map (·.1)).Nodup)
    (hlt : ∀ r ∈ allListed mc parts, 0 ≤ r.1 ∧ r.1 < rq.nExperts) (nDev pinHost : ℕ) :
    ∃ t, rq.planPins mc parts nDev pinHost = .ok t ∧ t.Ok rq.nExperts ∧
      ((allListed mc parts).map fun r => (r.1.toNat, r.2)) <+: t.pins := by
  obtain ⟨t, hfold, hok, hpins⟩ := (PinTable.Ok.empty rq.nExperts).pins hnodup hlt fun _ _ => rfl
  obtain ⟨hok', hpre'⟩ := fills_ok mc hok (parts.zip (rq.shares mc parts 0 nDev parts))
  obtain ⟨hok'', hpre''⟩ := hok'.fill none
    (pinHost - ((parts.filter fun p => p.be.isNone).map fun p => p.listed.length).sum)
  refine ⟨_, ?_, hok'', (hpins ▸ hpre').trans hpre''⟩
  unfold planPins
  rw [hfold]
  rfl

theorem planPins_refused (rq : MoePlanRequest) (hneg : ∃ r ∈ allListed mc parts, r.1 < 0) (nDev pinHost : ℕ) :
    ∃ e, rq.planPins mc parts nDev pinHost = .error e := by
  obtain ⟨e, hfold⟩ := PinTable.pins_negative (n := rq.nExperts) hneg PinTable.empty
  refine ⟨e, ?_⟩
  unfold planPins
  rw [hfold]
  rfl

/-- A table of pins that starts with the listed ones is what the plan is to hold. -/
theorem placed_of_table {t : PinTable B} (ht : t.Ok rq.nExperts) {plan : MoeHcsPlan B}
    (hpins : plan.nPinned = t.pins.length) (hbe : plan.pinBe = t.pins.map (·.2))
    (hids : plan.pinIds = some (t.pins.map (·.1)))
    (hlt : ∀ r ∈ allListed mc parts, 0 ≤ r.1)
    (hpre : ((allListed mc parts).map fun r => (r.1.toNat, r.2)) <+: t.pins) :
    rq.PinsPlaced mc parts plan := by
  unfold PinsPlaced
  rw [hids, hpins, hbe, Option.getD_some]
  refine ⟨?_, List.length_map .., ht.nodup, ht.lt, fun p hp e he => ?_⟩
  · have hsub : t.pins.map (·.1) ⊆ List.range rq.nExperts := fun e he => List.mem_range.2 (ht.lt e he)
    have hlen := (List.subperm_of_subset ht.nodup hsub).length_le
    rwa [List.length_map, List.length_range] at hlen
  · have hlisted : (e, p.holder mc) ∈ allListed mc parts :=
      List.mem_flatMap.2 ⟨p, hp, List.mem_map.2 ⟨e, he, rfl⟩⟩
    have hpin : (e.toNat, p.holder mc) ∈ t.pins := hpre.subset (List.mem_map.2 ⟨_, hlisted, rfl⟩)
    obtain ⟨k, hk⟩ := List.mem_iff_getElem?.1 hpin
    refine ⟨k, e.toNat, Int.toNat_of_nonneg (hlt _ hlisted), ?_, ?_⟩
    · rw [List.getElem?_map, hk]
      rfl
    · rw [List.getElem?_map, hk]
      rfl

theorem hostCounts_error {e : MoePlanError} (he : rq.hostCounts mc parts = .error e) : e = .outOfMemory := by
  unfold hostCounts at he
  dsimp only at he
  split_ifs at he
  exact (Except.error.inj he).symm

/-- With different listed pins below the number of experts, the plan holds them all unless one is
negative. -/
theorem placed_iff (hroom : rq.plan mc parts ≠ .error .outOfMemory)
    (hnodup : ((allListed mc parts).map (·.1)).Nodup)
    (hlt : ∀ r ∈ allListed mc parts, r.1 < rq.nExperts) :
    (∃ plan, rq.plan mc parts = .ok plan ∧ rq.PinsPlaced mc parts plan) ↔
      ∀ r ∈ allListed mc parts, 0 ≤ r.1 := by
  unfold plan at hroom ⊢
  cases hhost : rq.hostCounts mc parts with
  | error e =>
    rw [hhost, hostCounts_error hhost] at hroom
    exact absurd rfl hroom
  | ok counts =>
    obtain ⟨pinHost, lruNeed⟩ := counts
    dsimp only
    by_cases hnone : allListed mc parts = []
    · rw [if_pos hnone]
      refine iff_of_true ⟨_, rfl, ?_⟩ (by simp [hnone])
      refine ⟨hostCounts_le hhost, List.length_range, List.nodup_range, fun e he => ?_, fun p hp e he => ?_⟩
      · exact (List.mem_range.1 he).trans_le (hostCounts_le hhost)
      · have hlisted : (e, p.holder mc) ∈ allListed mc parts :=
          List.mem_flatMap.2 ⟨p, hp, List.mem_map.2 ⟨e, he, rfl⟩⟩
        rw [hnone] at hlisted
        exact absurd hlisted List.not_mem_nil
    · rw [if_neg hnone]
      by_cases hneg : ∀ r ∈ allListed mc parts, 0 ≤ r.1
      · obtain ⟨t, ht, hok, hpre⟩ := planPins_ok hnodup (fun r hr => ⟨hneg r hr, hlt r hr⟩)
          (rq.counts mc parts).1 pinHost
        have hsome : t.pins ≠ [] := by
          intro hnil
          rw [hnil, List.prefix_nil, List.map_eq_nil_iff] at hpre
          exact hnone hpre
        rw [ht]
        refine iff_of_true ⟨_, rfl, ?_⟩ hneg
        exact placed_of_table hok rfl rfl (if_neg hsome) hneg hpre
      · have hex : ∃ r ∈ allListed mc parts, r.1 < 0 := by
          push Not at hneg
          exact hneg
        obtain ⟨e, he⟩ := planPins_refused rq hex (rq.counts mc parts).1 pinHost
        rw [he]
        refine iff_of_false ?_ hneg
        rintro ⟨plan, hplan, -⟩
        cases hplan

/-- The slots of the tier fit unless its pins take up the whole pool. -/
theorem tierFits_iff : rq.TierFits mc parts ↔ ∀ r, rq.pickTierPart mc parts = some r →
    r.1.listed = [] ∨ r.1.listed.length < rq.tierCapacity mc r.1 := by
  refine forall_congr' fun r => imp_congr_right fun _ => ?_
  rw [← List.length_eq_zero_iff]
  unfold tierSlots
  cases hpins : r.1.pins with
  | none =>
    have hnone : r.1.listed = [] := by rw [MoePart.listed, hpins]; rfl
    simp [hnone]
  | some text =>
    dsimp only
    split_ifs <;> omega

end MoePlanRequest

/-! ### Accepted configurations -/

theorem flatMap_filter {α β : Type*} {f : α → List β} {p : α → Bool} {l : List α}
    (h : ∀ x ∈ l, p x = false → f x = []) : (l.filter p).flatMap f = l.flatMap f := by
  induction l with
  | nil => rfl
  | cons x l ih =>
    have ih := ih fun y hy => h y (List.mem_cons_of_mem _ hy)
    cases hp : p x with
    | true => rw [List.filter_cons_of_pos hp, List.flatMap_cons, List.flatMap_cons, ih]
    | false =>
      rw [List.filter_cons_of_neg (by simp [hp]), List.flatMap_cons, ih, h x List.mem_cons_self hp,
        List.nil_append]

namespace HcsConfig

variable {h : HcsConfig}

theorem pinIds_nil {d : HcsDevice} (hd : d.pins = []) : d.pinIds = [] := by
  unfold HcsDevice.pinIds hcsPinListIds
  rw [if_pos hd]

/-- The parts list the pins of the devices. -/
theorem parts_listed {n : ℕ} (he : h.enabled) (hn : 0 < n) {parts : List HcsPart}
    (hp : h.materializeExpertParts n = some parts) (backend : String → Option B) (mc : MoeMachine B) :
    (MoePlanRequest.allListed mc (parts.map (·.moe backend))).map (·.1) = h.allPins := by
  have hflat : (MoePlanRequest.allListed mc (parts.map (·.moe backend))).map (·.1) =
      parts.flatMap fun p => (p.moe backend).listed := by
    unfold MoePlanRequest.allListed
    rw [List.map_flatMap, List.flatMap_map]
    simp [Function.comp_def]
  rw [hflat]
  unfold materializeExpertParts at hp
  split_ifs at hp with hnone
  · obtain rfl := Option.some.inj hp
    have hpins : ∀ d ∈ h.devices, d.pins = [] := by
      rcases hnone with hoff | hzero | hnone
      · simp [he] at hoff
      · omega
      · exact hnone.2
    exact (List.flatMap_eq_nil_iff.2 fun d hd => pinIds_nil (hpins d hd)).symm
  · obtain ⟨counts, hres, rfl⟩ := Option.map_eq_some_iff.1 hp
    have hlen := resolveCounts_length hres
    have hsmall := h.small
    have hlist : ∀ r : HcsDevice × ℕ, (((fun r : HcsDevice × ℕ => (⟨r.1.name, r.2,
        if r.1.hasPriority then some r.1.priority else none,
        if r.1.pins ≠ [] then some r.1.pins else none⟩ : HcsPart)) r).moe backend).listed = r.1.pinIds := by
      intro r
      unfold HcsPart.moe MoePart.listed
      by_cases hpins : r.1.pins = []
      · simp [hpins, pinIds_nil hpins]
      · simp only [ne_eq, hpins, not_false_eq_true, if_true]
        rfl
    rw [List.flatMap_map, List.take_of_length_le, funext hlist, flatMap_filter]
    · rw [← List.flatMap_map, List.map_fst_zip]
      · rfl
      · exact hlen.ge
    · intro r _ hr
      have hr' := of_decide_eq_false hr
      exact pinIds_nil (by_contra fun hne => hr' (Or.inr hne))
    · refine (List.length_filter_le _ _).trans ?_
      rw [List.length_zip]
      exact (Nat.min_le_left _ _).trans hsmall

theorem parts_disabled {n : ℕ} (he : ¬h.enabled) : h.materializeExpertParts n = some [] :=
  if_pos (Or.inl (by simpa using he))

end HcsConfig

/-- The plan for the parts of an accepted configuration places all pins exactly if none is negative, and its
tier fits its pool exactly if the tier's pins do not take up all of it. -/
theorem moePlan_pins {h : HcsConfig} (host : HcsHost) {isHost : String → Bool} {shape : HcsShape}
    (stream : Bool) {m : HcsMaterial} (hv : h.validate host (.readable shape) stream = some [])
    (hm : h.materialize isHost (.readable shape) = some m) (hmoe : 0 < shape.nExperts)
    (backend : String → Option B) (mc : MoeMachine B) {rq : MoePlanRequest}
    (hrq : rq.nExperts = shape.nExperts) :
    let parts := m.parts.map (·.moe backend)
    (rq.plan mc parts ≠ .error .outOfMemory →
      ((∃ plan, rq.plan mc parts = .ok plan ∧ rq.PinsPlaced mc parts plan) ↔
        (h.enabled → ∀ e ∈ h.allPins, 0 ≤ e))) ∧
    (rq.TierFits mc parts ↔ ∀ r, rq.pickTierPart mc parts = some r →
      r.1.listed = [] ∨ r.1.listed.length < rq.tierCapacity mc r.1) := by
  refine ⟨fun hroom => ?_, MoePlanRequest.tierFits_iff⟩
  have hparts : h.materializeExpertParts shape.nExperts = some m.parts := by
    unfold HcsConfig.materialize at hm
    obtain ⟨layers, -, hm⟩ := Option.bind_eq_some_iff.1 hm
    obtain ⟨parts, hparts, hm⟩ := Option.bind_eq_some_iff.1 hm
    obtain ⟨counts, -, hm⟩ := Option.bind_eq_some_iff.1 hm
    rw [← Option.some.inj hm]
    exact hparts
  by_cases he : h.enabled
  · have hlisted := HcsConfig.parts_listed he hmoe hparts backend mc
    obtain ⟨-, -, hpins, -⟩ := HcsConfig.validate_passed hv he
    obtain ⟨hnodup, hlt⟩ := HcsConfig.checkPinRules_nil hmoe (hpins hmoe)
    rw [← hlisted] at hnodup hlt
    rw [MoePlanRequest.placed_iff hroom hnodup fun r hr =>
      hrq.symm ▸ hlt r.1 (List.mem_map.2 ⟨r, hr, rfl⟩), ← hlisted]
    simp [he]
  · rw [HcsConfig.parts_disabled he] at hparts
    rw [← Option.some.inj hparts] at hroom ⊢
    rw [MoePlanRequest.placed_iff hroom List.nodup_nil fun r hr => absurd hr List.not_mem_nil]
    exact iff_of_true (fun r hr => absurd hr List.not_mem_nil) fun henabled => absurd henabled he

/-- A machine on which every device can hold experts and has room for them. -/
def roomyMachine : MoeMachine Unit := ⟨fun _ => true, fun _ => some 0, fun _ => 2 ^ 40, 2 ^ 40⟩

def smallRequest (nExperts : ℕ) : MoePlanRequest := ⟨nExperts, 1, 1, 1, -1, true, false⟩

/-- A device with nothing but two pins, and the host with the other two experts. -/
def tierOfPins : HcsConfig :=
  ⟨true, [⟨"vulkan0", hcsTasksAll, hcsCountAll, 0, ['0', ',', '1'], false, 0⟩,
    ⟨"cpu0", hcsTasksAll, 1, 2, [], false, 0⟩], by decide⟩

def onDevice (name : String) : Option Unit := if name = "cpu0" then none else some ()

theorem moePlan_pins_two : ∃ m, tierOfPins.materialize (· = "cpu0") (.readable ⟨2, 4, by decide, by decide⟩) =
    some m ∧ ((smallRequest 4).plan roomyMachine (m.parts.map (·.moe onDevice)) ≠ .error .outOfMemory →
      ((∃ plan, (smallRequest 4).plan roomyMachine (m.parts.map (·.moe onDevice)) = .ok plan ∧
        (smallRequest 4).PinsPlaced roomyMachine (m.parts.map (·.moe onDevice)) plan) ↔
          (tierOfPins.enabled → ∀ e ∈ tierOfPins.allPins, 0 ≤ e))) := by
  have hsome : (tierOfPins.materialize (· = "cpu0") (.readable ⟨2, 4, by decide, by decide⟩)).isSome := by
    decide +kernel
  obtain ⟨m, hm⟩ := Option.isSome_iff_exists.1 hsome
  exact ⟨m, hm, (moePlan_pins HcsConfig.anyHost true (by decide +kernel) hm
    (by decide) onDevice roomyMachine rfl).1⟩

/-- The plan of an accepted configuration is refused, and two slots with two more for pins are planned in a
pool that has room for two. -/
theorem moePlan_pins_refused :
    (∃ m, HcsConfig.negativePins.validate HcsConfig.anyHost (.readable HcsConfig.smallShape) false = some [] ∧
      HcsConfig.negativePins.materialize (· = "cpu0") (.readable HcsConfig.smallShape) = some m ∧
      (smallRequest 2).plan roomyMachine (m.parts.map (·.moe onDevice)) = .error .invalidArg) ∧
    ∃ m, tierOfPins.validate HcsConfig.anyHost (.readable ⟨2, 4, by decide, by decide⟩) true = some [] ∧
      tierOfPins.materialize (· = "cpu0") (.readable ⟨2, 4, by decide, by decide⟩) = some m ∧
      ¬(smallRequest 4).TierFits roomyMachine (m.parts.map (·.moe onDevice)) := by
  have hneg : ((HcsConfig.negativePins.materialize (· = "cpu0") (.readable HcsConfig.smallShape)).map fun m =>
      decide ((smallRequest 2).plan roomyMachine (m.parts.map (·.moe onDevice)) = .error .invalidArg)) =
        some true := by decide +kernel
  have htier : ((tierOfPins.materialize (· = "cpu0") (.readable ⟨2, 4, by decide, by decide⟩)).map fun m =>
      ((smallRequest 4).pickTierPart roomyMachine (m.parts.map (·.moe onDevice))).map fun r =>
        ((smallRequest 4).tierCapacity roomyMachine r.1, (smallRequest 4).tierSlots roomyMachine r.1,
          r.1.listed)) = some (some (2, 2, [0, 1])) := by decide +kernel
  obtain ⟨m, hm, hplan⟩ := Option.map_eq_some_iff.1 hneg
  obtain ⟨m', hm', hpick⟩ := Option.map_eq_some_iff.1 htier
  obtain ⟨r, hr, hsizes⟩ := Option.map_eq_some_iff.1 hpick
  obtain ⟨hcap, hrest⟩ := Prod.mk.inj hsizes
  obtain ⟨hslots, hlisted⟩ := Prod.mk.inj hrest
  refine ⟨⟨m, by decide +kernel, hm, of_decide_eq_true hplan⟩, m', by decide +kernel, hm', fun hfits => ?_⟩
  have hover := hfits r hr
  rw [hcap, hslots, hlisted] at hover
  exact absurd hover (by decide)

end Kappai
