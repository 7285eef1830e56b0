import Kappai.Spec.Hcs
import Mathlib.Algebra.Order.BigOperators.Group.List
import Mathlib.Algebra.Order.Group.Nat
import Mathlib.Data.List.GetD
import Mathlib.Data.List.InsertIdx
import Mathlib.Data.List.Perm.Basic

/-! When the counts that are resolved add up to what is reported, and what the loader is told of an accepted
configuration. -/

namespace Kappai

/-- A list of shares adds up to one of them and the rest. -/
theorem sum_eraseIdx {l : List ℕ} {i : ℕ} (hi : i < l.length) : l.sum = l.getD i 0 + (l.eraseIdx i).sum := by
  have hperm := List.getElem_cons_eraseIdx_perm hi
  rw [List.getD_eq_getElem _ _ hi, ← hperm.sum_eq, List.sum_cons]

/-- Leaving out what counts nothing keeps a sum. -/
theorem sum_map_filter {α : Type*} (f : α → ℕ) (p : α → Bool) {l : List α}
    (h : ∀ x ∈ l, p x = false → f x = 0) : ((l.filter p).map f).sum = (l.map f).sum := by
  induction l with
  | nil => rfl
  | cons x l ih =>
    have ih := ih fun y hy => h y (List.mem_cons_of_mem _ hy)
    cases hp : p x with
    | true => rw [List.filter_cons_of_pos hp, List.map_cons, List.map_cons, List.sum_cons, List.sum_cons, ih]
    | false =>
      rw [List.filter_cons_of_neg (by simp [hp]), List.map_cons, List.sum_cons, ih,
        h x List.mem_cons_self hp, Nat.zero_add]

namespace HcsConfig

variable {h : HcsConfig} {field : HcsField} {total : ℤ} {s : ℕ}

/-- The `*` of a field has no number. -/
theorem star_numeric (hs : h.star field = some s) :
    s < h.devices.length ∧ (h.devices.map (·.numeric field)).getD s 0 = 0 := by
  obtain ⟨hlt, hall, -⟩ := List.findIdx?_eq_some_iff_getElem.1 hs
  refine ⟨hlt, ?_⟩
  have hcount : h.devices[s].count field = hcsCountAll := of_decide_eq_true hall
  rw [List.getD_eq_getElem _ _ (by rwa [List.length_map]), List.getElem_map, HcsDevice.numeric, hcount]
  rfl

theorem assigned_eq (h : HcsConfig) (field : HcsField) : h.assigned field =
    (h.devices.map (·.numeric field)).sum + (h.devices.map (·.pinCount field)).sum :=
  List.sum_map_add

/-- What the shares add up to where `*` is given the remainder: the pins of the others are missing. -/
theorem resolveCounts_remainder (hs : h.star field = some s) (hlt : (h.assigned field : ℤ) < total) :
    ∃ held, h.resolveCounts field total = some (held, min total intMax) ∧
      held.length = h.devices.length ∧
      (held.sum : ℤ) = total - ((h.devices.map (·.pinCount field)).eraseIdx s).sum := by
  obtain ⟨hlen, hzero⟩ := star_numeric hs
  have hlen' {f : HcsDevice → ℕ} : s < (h.devices.map f).length := by rwa [List.length_map]
  have hnum := sum_eraseIdx (hlen' (f := (·.numeric field)))
  have hpin := sum_eraseIdx (hlen' (f := (·.pinCount field)))
  have heq := h.assigned_eq field
  unfold resolveCounts
  simp only [hs, hlt, decide_true]
  refine ⟨_, rfl, by simp, ?_⟩
  rw [sum_eraseIdx (i := s) (by simpa using hlen), List.eraseIdx_set_eq,
    List.getD_eq_getElem _ _ (by simpa using hlen), List.getElem_set_self]
  rw [hzero] at hnum
  omega

/-- Where nothing is left for `*`, the shares are what is given outright. -/
theorem resolveCounts_outright (hs : (h.star field).isSome → ¬(h.assigned field : ℤ) < total) :
    h.resolveCounts field total =
      if ∀ c ∈ h.outright field, (c : ℤ) ≤ intMax then
        some (h.outright field, min (h.assigned field : ℤ) intMax) else none := by
  unfold resolveCounts
  cases hstar : h.star field with
  | none => rfl
  | some s =>
    have hlt : ¬(h.assigned field : ℤ) < total := hs (by rw [hstar]; rfl)
    simp only [hlt, decide_false]

theorem others_pinless : ((h.devices.map (·.pinCount field)).eraseIdx s).sum = 0 ↔
    ∀ d ∈ h.devices.eraseIdx s, d.pinCount field = 0 := by
  rw [List.eraseIdx_map, List.sum_eq_zero_iff_forall_eq_nat, List.forall_mem_map]

/-- The shares add up to what is reported, and to the total where `*` is given a remainder. -/
theorem sums_iff (h : HcsConfig) (field : HcsField) (total : ℤ) :
    (∃ held, h.resolveCounts field total = some (held, (held.sum : ℤ)) ∧
      (h.LeavesRemainder field total → (held.sum : ℤ) = total)) ↔ h.SumsUp field total := by
  unfold SumsUp LeavesRemainder
  by_cases hrem : (h.star field).isSome ∧ (h.assigned field : ℤ) < total
  · obtain ⟨hsome, hlt⟩ := hrem
    obtain ⟨s, hs⟩ := Option.isSome_iff_exists.1 hsome
    obtain ⟨held, hres, -, hsum⟩ := resolveCounts_remainder hs hlt
    simp only [hs, hlt, if_true, hres, Option.some.injEq, Prod.mk.injEq, Option.isSome_some, and_self,
      true_implies]
    rw [← others_pinless]
    constructor
    · rintro ⟨held', ⟨rfl, hmin⟩, htotal⟩
      omega
    · rintro ⟨hmax, hnone⟩
      exact ⟨held, ⟨rfl, by omega⟩, by omega⟩
  · have hout : h.resolveCounts field total = _ := resolveCounts_outright fun hs hlt => hrem ⟨hs, hlt⟩
    have hfits : (h.assigned field : ℤ) ≤ intMax → ∀ c ∈ h.outright field, (c : ℤ) ≤ intMax := by
      intro hle c hc
      have := List.le_sum_of_mem hc
      unfold assigned at hle
      omega
    have hiff : (∃ held, h.resolveCounts field total = some (held, (held.sum : ℤ))) ↔
        (h.assigned field : ℤ) ≤ intMax := by
      rw [hout]
      constructor
      · rintro ⟨held, heq⟩
        split_ifs at heq
        obtain ⟨rfl, hmin⟩ := Prod.mk.inj (Option.some.inj heq)
        unfold assigned at *
        omega
      · intro hle
        rw [if_pos (hfits hle), Int.min_eq_left hle]
        exact ⟨_, rfl⟩
    simp only [hrem, false_implies, and_true, hiff]
    cases hstar : h.star field with
    | none => rfl
    | some s =>
      have hlt : ¬(h.assigned field : ℤ) < total := fun hlt => hrem ⟨by rw [hstar]; rfl, hlt⟩
      simp only [hlt, if_false]

theorem resolveCounts_length {held : List ℕ} {r : ℤ} (hres : h.resolveCounts field total = some (held, r)) :
    held.length = h.devices.length := by
  by_cases hrem : (h.star field).isSome ∧ (h.assigned field : ℤ) < total
  · obtain ⟨s, hs⟩ := Option.isSome_iff_exists.1 hrem.1
    obtain ⟨held', hres', hlen, -⟩ := resolveCounts_remainder hs hrem.2
    obtain ⟨rfl, -⟩ := Prod.mk.inj (Option.some.inj (hres.symm.trans hres'))
    exact hlen
  · rw [resolveCounts_outright fun hs hlt => hrem ⟨hs, hlt⟩] at hres
    split_ifs at hres
    obtain ⟨rfl, -⟩ := Prod.mk.inj (Option.some.inj hres)
    exact List.length_map ..

/-! ### Accepted configurations -/

theorem checkCoverage_nil {n : ℕ} {stream : Bool} {held : List ℕ}
    (hc : h.checkCoverage field n stream = some ([], held)) :
    ∃ r, h.resolveCounts field n = some (held, r) ∧ r ≤ n ∧ (field = .layers → r = n) := by
  unfold checkCoverage at hc
  obtain ⟨⟨held', r⟩, hres, hr⟩ := Option.map_eq_some_iff.1 hc
  dsimp only at hr
  split_ifs at hr with hmore hzero hless
  · cases (Prod.mk.inj hr).1
  · cases (Prod.mk.inj hr).1
  · cases (Prod.mk.inj hr).1
  · obtain ⟨-, rfl⟩ := Prod.mk.inj hr
    refine ⟨r, hres, Int.not_lt.1 hmore, ?_⟩
    rintro rfl
    by_contra hne
    exact hless ⟨by omega, fun h => by cases h.1⟩

/-- What an accepted configuration has passed. -/
theorem validate_passed {host : HcsHost} {shape : HcsShape} {stream : Bool}
    (hv : h.validate host (.readable shape) stream = some []) (he : h.enabled) :
    (∃ held, h.resolveCounts .layers shape.nLayers = some (held, (shape.nLayers : ℤ))) ∧
      (0 < shape.nExperts → h.firstSetExperts ≠ hcsCountUnset →
        ∃ held r, h.resolveCounts .experts shape.nExperts = some (held, r) ∧ r ≤ shape.nExperts) ∧
      (0 < shape.nExperts → h.checkPinRules shape.nExperts = []) ∧
      (shape.nExperts = 0 → ∀ d ∈ h.devices, d.experts = hcsCountUnset) := by
  have heff : h.effective = h := by rw [effective, if_pos he]
  have hdev : h.devices ≠ [] := by
    intro hnone
    simp [validate, heff, hnone] at hv
  unfold validate at hv
  rw [heff] at hv
  dsimp only at hv
  rw [if_neg (by simp [hdev, he])] at hv
  obtain ⟨rules, hrules, happ⟩ := Option.map_eq_some_iff.1 hv
  obtain ⟨-, rfl⟩ := List.append_eq_nil_iff.1 happ
  unfold checkModelRules at hrules
  obtain ⟨⟨layers, held⟩, hlayers, hrules⟩ := Option.bind_eq_some_iff.1 hrules
  obtain ⟨experts, hexperts, hrules⟩ := Option.bind_eq_some_iff.1 hrules
  have hempty := Option.some.inj hrules
  simp only [List.append_eq_nil_iff] at hempty
  obtain ⟨⟨⟨rfl, rfl⟩, hpins⟩, hholds⟩ := hempty
  obtain ⟨r, hres, hle, heq⟩ := checkCoverage_nil hlayers
  refine ⟨⟨held, by rw [hres, heq rfl]⟩, fun hpos hset => ?_, fun hpos => ?_, fun hzero d hd => ?_⟩
  · rw [checkExperts, if_pos ⟨hpos, hset⟩] at hexperts
    obtain ⟨⟨reports, held'⟩, hcov, rfl⟩ := Option.map_eq_some_iff.1 hexperts
    obtain ⟨r', hres', hle', -⟩ := checkCoverage_nil hcov
    exact ⟨held', r', hres', hle'⟩
  · rwa [if_pos hpos] at hpins
  · have hmem : ∃ c, (d, c) ∈ h.devices.zip held := by
      have hlen := resolveCounts_length hres
      obtain ⟨i, hi, rfl⟩ := List.mem_iff_getElem.1 hd
      refine ⟨held[i], ?_⟩
      rw [← List.getElem_zip (l := h.devices) (h := by simpa [hlen] using hi)]
      exact List.getElem_mem _
    obtain ⟨c, hc⟩ := hmem
    have hnil := List.flatMap_eq_nil_iff.1 hholds _ hc
    by_contra hne
    simp [checkHolds, hzero, hne] at hnil

/-! ### What the loader is told -/


theorem layoutOrder_perm (h : HcsConfig) (isHost : String → Bool) :
    (h.layoutOrder isHost).Perm (List.range h.devices.length) :=
  List.perm_append_comm.trans (List.filter_append_perm _ _)

/-- The layers of the map are the layers that are held. -/
theorem materializeLayerMap_sum (isHost : String → Bool) {n : ℕ} {held : List ℕ} {r : ℤ}
    (hres : h.resolveCounts .layers n = some (held, r)) :
    ∃ layers, h.materializeLayerMap isHost n = some layers ∧ (layers.map (·.2)).sum = held.sum := by
  have hlen := resolveCounts_length hres
  have hperm := h.layoutOrder_perm isHost
  unfold materializeLayerMap
  rw [hres]
  refine ⟨_, rfl, ?_⟩
  dsimp only
  rw [List.take_of_length_le, sum_map_filter, List.map_map]
  · have hget : (List.range h.devices.length).map (fun d => held.getD d 0) = held := by
      refine List.ext_getElem (by simp [hlen]) fun i hi hi' => ?_
      simp [hi']
    calc ((h.layoutOrder isHost).map fun d => held.getD d 0).sum
        = ((List.range h.devices.length).map fun d => held.getD d 0).sum := (hperm.map _).sum_eq
      _ = held.sum := by rw [hget]
  · intro x _ hx
    simpa using hx
  · have hsmall := h.small
    refine (List.length_filter_le _ _).trans ?_
    rw [List.length_map, hperm.length_eq, List.length_range]
    exact hsmall

/-- The experts of the parts are the experts that are held. -/
theorem parts_sum {held : List ℕ} (hlen : held.length = h.devices.length) (part : HcsDevice × ℕ → HcsPart)
    (hpart : ∀ r, (part r).count = r.2) :
    (((((h.devices.zip held).filter fun r => 0 < r.2 ∨ r.1.pins ≠ []).take configMaxLayerDevices).map
      part).map (·.count)).sum = held.sum := by
  have hsmall := h.small
  have hcount : HcsPart.count ∘ part = Prod.snd := funext hpart
  rw [List.take_of_length_le, List.map_map, hcount, sum_map_filter, List.map_snd_zip]
  · exact hlen.le
  · intro x _ hx
    have hx' := of_decide_eq_false hx
    omega
  · refine (List.length_filter_le _ _).trans ?_
    rw [List.length_zip]
    exact (Nat.min_le_left _ _).trans hsmall

theorem firstSetExperts_unset (hset : h.firstSetExperts = hcsCountUnset) :
    ∀ d ∈ h.devices, d.experts = hcsCountUnset := by
  intro d hd
  unfold firstSetExperts at hset
  cases hfind : h.devices.find? fun d => d.experts ≠ hcsCountUnset with
  | none => simpa using List.find?_eq_none.1 hfind d hd
  | some e =>
    have hne : e.experts ≠ hcsCountUnset := by simpa using List.find?_some hfind
    rw [hfind] at hset
    exact absurd hset hne

/-- Without expert counts the pins alone are held. -/
theorem resolveCounts_unset (hunset : ∀ d ∈ h.devices, d.experts = hcsCountUnset) (total : ℤ) :
    ∃ r, h.resolveCounts .experts total = some (h.outright .experts, r) := by
  have hnone : h.star .experts = none := by
    refine List.findIdx?_eq_none_iff.2 fun d hd => ?_
    simp only [HcsDevice.count, hunset d hd]
    decide
  have hsmall : ∀ c ∈ h.outright .experts, (c : ℤ) ≤ intMax := by
    intro c hc
    obtain ⟨d, hd, rfl⟩ := List.mem_map.1 hc
    have hnum : d.numeric .experts = 0 := by
      unfold HcsDevice.numeric HcsDevice.count
      rw [hunset d hd]
      rfl
    have hpins : d.pinCount .experts ≤ 128 := by
      change (hcsPinListIds d.pins 128).length ≤ 128
      unfold hcsPinListIds
      split_ifs
      · exact Nat.zero_le _
      · split
        · exact Nat.zero_le _
        · rw [List.length_map]
          exact List.length_take_le _ _
    rw [hnum]
    unfold intMax
    omega
  rw [resolveCounts_outright (by rw [hnone]; exact fun h => (nomatch h)), if_pos hsmall]
  exact ⟨_, rfl⟩

/-- The layers that are told to the loader are those of the model, if the numbers fit. -/
theorem layers_fit {n : ℕ} {held : List ℕ} (hn : (n : ℤ) ≤ intMax)
    (hres : h.resolveCounts .layers n = some (held, (n : ℤ))) :
    held.sum = n ↔ (h.assigned .layers : ℤ) ≤ intMax := by
  by_cases hrem : (h.star .layers).isSome ∧ (h.assigned .layers : ℤ) < n
  · obtain ⟨s, hs⟩ := Option.isSome_iff_exists.1 hrem.1
    obtain ⟨held', hres', -, hsum⟩ := resolveCounts_remainder hs hrem.2
    obtain ⟨rfl, -⟩ := Prod.mk.inj (Option.some.inj (hres.symm.trans hres'))
    have hnone : ((h.devices.map (·.pinCount .layers)).eraseIdx s).sum = 0 := others_pinless.2 fun _ _ => rfl
    omega
  · rw [resolveCounts_outright fun hs hlt => hrem ⟨hs, hlt⟩] at hres
    split_ifs at hres
    obtain ⟨rfl, hmin⟩ := Prod.mk.inj (Option.some.inj hres)
    unfold assigned at *
    omega

theorem experts_fit {n : ℕ} {held : List ℕ} {r : ℤ} (hn : (n : ℤ) ≤ intMax)
    (hres : h.resolveCounts .experts n = some (held, r)) (hr : r ≤ n) :
    held.sum ≤ n ↔ (h.assigned .experts : ℤ) ≤ intMax := by
  by_cases hrem : (h.star .experts).isSome ∧ (h.assigned .experts : ℤ) < n
  · obtain ⟨s, hs⟩ := Option.isSome_iff_exists.1 hrem.1
    obtain ⟨held', hres', -, hsum⟩ := resolveCounts_remainder hs hrem.2
    obtain ⟨rfl, -⟩ := Prod.mk.inj (Option.some.inj (hres.symm.trans hres'))
    omega
  · rw [resolveCounts_outright fun hs hlt => hrem ⟨hs, hlt⟩] at hres
    split_ifs at hres
    obtain ⟨rfl, hmin⟩ := Prod.mk.inj (Option.some.inj hres)
    unfold assigned at *
    omega

variable {host : HcsHost} {shape : HcsShape} {stream : Bool}

theorem layers_told (hv : h.validate host (.readable shape) stream = some []) (he : h.enabled)
    (isHost : String → Bool) :
    ∃ layers, h.materializeLayerMap isHost shape.nLayers = some layers ∧
      ((layers.map (·.2)).sum = shape.nLayers ↔ (h.assigned .layers : ℤ) ≤ intMax) := by
  obtain ⟨⟨held, hres⟩, -⟩ := validate_passed hv he
  obtain ⟨layers, hlayers, hsum⟩ := materializeLayerMap_sum isHost hres
  exact ⟨layers, hlayers, hsum ▸ layers_fit shape.layersInt hres⟩

theorem parts_told (hv : h.validate host (.readable shape) stream = some []) (he : h.enabled) :
    ∃ parts, h.materializeExpertParts shape.nExperts = some parts ∧
      ((parts.map (·.count)).sum ≤ shape.nExperts ↔ (0 < shape.nExperts →
        if h.firstSetExperts = hcsCountUnset then h.assigned .experts ≤ shape.nExperts
        else (h.assigned .experts : ℤ) ≤ intMax)) := by
  obtain ⟨-, hset, -⟩ := validate_passed hv he
  unfold materializeExpertParts
  rcases Nat.eq_zero_or_pos shape.nExperts with hno | hpos
  · rw [if_pos (Or.inr (Or.inl hno))]
    exact ⟨[], rfl, iff_of_true (Nat.zero_le _) fun hpos => absurd hno hpos.ne'⟩
  simp only [hpos, true_implies]
  by_cases hunset : h.firstSetExperts = hcsCountUnset
  · rw [if_pos hunset]
    by_cases hpins : ∀ d ∈ h.devices, d.pins = []
    · rw [if_pos (Or.inr (Or.inr ⟨hunset, hpins⟩))]
      refine ⟨[], rfl, iff_of_true (Nat.zero_le _) ?_⟩
      have hzero : ∀ c ∈ h.outright .experts, c = 0 := by
        intro c hc
        obtain ⟨d, hd, rfl⟩ := List.mem_map.1 hc
        unfold HcsDevice.numeric HcsDevice.count HcsDevice.pinCount HcsDevice.pinIds hcsPinListIds
        rw [firstSetExperts_unset hunset d hd, if_pos (hpins d hd)]
        rfl
      rw [assigned, List.sum_eq_zero_iff_forall_eq_nat.2 hzero]
      exact Nat.zero_le _
    · obtain ⟨r, hres⟩ := resolveCounts_unset (firstSetExperts_unset hunset) shape.nExperts
      rw [if_neg (by simp [he, hpos.ne', hpins]), hres]
      exact ⟨_, rfl, by rw [parts_sum (resolveCounts_length hres) _ fun _ => rfl]; rfl⟩
  · obtain ⟨held, r, hres, hr⟩ := hset hpos hunset
    rw [if_neg hunset, if_neg (by simp [he, hpos.ne', hunset]), hres]
    refine ⟨_, rfl, ?_⟩
    rw [parts_sum (resolveCounts_length hres) _ fun _ => rfl]
    exact experts_fit shape.expertsInt hres hr

/-- What the loader is told of an accepted configuration. -/
theorem materialize_fits (hv : h.validate host (.readable shape) stream = some []) (isHost : String → Bool) :
    ∃ m, h.materialize isHost (.readable shape) = some m ∧
      (((2 ≤ h.effective.devices.length → (m.layers.map (·.2)).sum = shape.nLayers) ∧
        (m.parts.map (·.count)).sum ≤ shape.nExperts) ↔ h.Fits shape) := by
  unfold materialize materializeLayers HcsModel.nExperts Fits
  cases he : h.enabled with
  | false =>
    have heff : h.effective = ⟨false, _, _⟩ := if_neg (by simp [he])
    have hunset : ∀ d ∈ h.effective.devices, d.experts = hcsCountUnset := by
      intro d hd
      rw [heff] at hd
      obtain rfl := List.mem_singleton.1 hd
      rfl
    obtain ⟨r, hres⟩ := resolveCounts_unset hunset shape.nExperts
    have hlen : ¬2 ≤ h.effective.devices.length := by rw [heff]; exact Nat.not_succ_le_self 1
    have hparts : h.materializeExpertParts shape.nExperts = some [] := if_pos (Or.inl (by simp [he]))
    simp only [if_neg hlen, hparts, hres]
    refine ⟨_, rfl, ?_⟩
    simp [hlen]
  | true =>
    have heff : h.effective = h := if_pos he
    obtain ⟨layers, hlayers, hlsum⟩ := layers_told hv he isHost
    obtain ⟨parts, hparts, hpsum⟩ := parts_told hv he
    have hcounts : ∃ held r, h.resolveCounts .experts shape.nExperts = some (held, r) := by
      obtain ⟨-, hset, -, hzero⟩ := validate_passed hv he
      by_cases hunset : h.firstSetExperts = hcsCountUnset
      · obtain ⟨r, hres⟩ := resolveCounts_unset (firstSetExperts_unset hunset) shape.nExperts
        exact ⟨_, r, hres⟩
      · rcases Nat.eq_zero_or_pos shape.nExperts with hno | hpos
        · obtain ⟨r, hres⟩ := resolveCounts_unset (hzero hno) shape.nExperts
          exact ⟨_, r, hres⟩
        · obtain ⟨held, r, hres, -⟩ := hset hpos hunset
          exact ⟨held, r, hres⟩
    obtain ⟨held, r, hres⟩ := hcounts
    rw [heff]
    by_cases htwo : 2 ≤ h.devices.length
    · simp only [if_pos htwo, hlayers, hparts, hres]
      refine ⟨_, rfl, ?_⟩
      simp only [htwo, true_implies]
      exact and_congr hlsum hpsum
    · simp only [if_neg htwo, hparts, hres]
      refine ⟨_, rfl, ?_⟩
      simp only [htwo, false_implies, true_and, true_implies]
      exact hpsum

/-- The shares that are resolved add up to what is reported exactly if `SumsUp`, and what is told to the loader
of an accepted configuration adds up exactly if it `Fits`. -/
theorem counts_add_up (h : HcsConfig) :
    (∀ (field : HcsField) (total : ℤ),
      (∃ held, h.resolveCounts field total = some (held, (held.sum : ℤ)) ∧
        (h.LeavesRemainder field total → (held.sum : ℤ) = total)) ↔ h.SumsUp field total) ∧
    ∀ (host : HcsHost) (isHost : String → Bool) (shape : HcsShape) (stream : Bool),
      h.validate host (.readable shape) stream = some [] →
      ∃ m, h.materialize isHost (.readable shape) = some m ∧
        (((2 ≤ h.effective.devices.length → (m.layers.map (·.2)).sum = shape.nLayers) ∧
          (m.parts.map (·.count)).sum ≤ shape.nExperts) ↔ h.Fits shape) :=
  ⟨sums_iff h, fun _ isHost _ _ hv => materialize_fits hv isHost⟩

/-- Two devices: one has the pin 2 and one expert, the other the rest. -/
def starBesidePins : HcsConfig :=
  ⟨true, [⟨"vulkan0", hcsTasksAll, hcsCountAll, hcsCountAll, [], false, 0⟩,
    ⟨"cpu0", hcsTasksAll, 1, 1, ['2'], false, 0⟩], by decide⟩

/-- One device with three pins that no model has. -/
def negativePins : HcsConfig :=
  ⟨true, [⟨"cpu0", hcsTasksAll, hcsCountAll, hcsCountUnset, "-1,-2,-3".toList, false, 0⟩], by decide⟩

def anyHost : HcsHost := ⟨fun _ => true, ["vulkan0"], "vulkan0", "model.gguf"⟩

def smallShape : HcsShape := ⟨2, 2, by decide, by decide⟩

theorem counts_add_up_star :
    ∃ m, starBesidePins.materialize (· = "cpu0") (.readable ⟨2, 4, by decide, by decide⟩) = some m ∧
      (((2 ≤ starBesidePins.effective.devices.length → (m.layers.map (·.2)).sum = 2) ∧
        (m.parts.map (·.count)).sum ≤ 4) ↔ starBesidePins.Fits ⟨2, 4, by decide, by decide⟩) :=
  (counts_add_up starBesidePins).2 anyHost _ _ false (by decide +kernel)

/-- The pin is missing from the shares; and three pins are accepted for a model with two experts. -/
theorem counts_missing_pins :
    starBesidePins.LeavesRemainder .experts 4 ∧
      starBesidePins.resolveCounts .experts 4 = some ([2, 1], 4) ∧
      negativePins.validate anyHost (.readable smallShape) false = some [] ∧
      ∃ m, negativePins.materialize (· = "cpu0") (.readable smallShape) = some m ∧
        smallShape.nExperts < (m.parts.map (·.count)).sum := by
  have hover : ((negativePins.materialize (· = "cpu0") (.readable smallShape)).map
      fun m => (m.parts.map (·.count)).sum) = some 3 := by decide +kernel
  obtain ⟨m, hm, hsum⟩ := Option.map_eq_some_iff.1 hover
  refine ⟨⟨by decide +kernel, by decide +kernel⟩, by decide +kernel, by decide +kernel, m, hm, ?_⟩
  rw [hsum]
  decide

end HcsConfig

end Kappai
