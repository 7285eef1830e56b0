import Kappai.Spec.ToolScan

/-! Searching a text for a marker while the text grows: what `find_marker` finds, and what the
tail that `marker_tail_len` holds back is good for. -/

namespace Kappai

namespace MarkAt

variable {marker : Option Text} {s u : Text} {k : ℕ}

theorem append (h : MarkAt marker s k) (u : Text) : MarkAt marker (s ++ u) k := by
  obtain ⟨w, hw, hne, hocc⟩ := h
  exact ⟨w, hw, hne, hocc.append u⟩

theorem lt_length (h : MarkAt marker s k) : k < s.length := by
  obtain ⟨w, -, hne, hocc⟩ := h
  exact hocc.lt_length hne

theorem occursAt {w : Text} (h : MarkAt (some w) s k) : OccursAt w s k := by
  obtain ⟨w', hw, -, hocc⟩ := h
  obtain rfl := Option.some.inj hw
  exact hocc

theorem ne_nil {w : Text} (h : MarkAt (some w) s k) : w ≠ [] := by
  obtain ⟨w', hw, hne, -⟩ := h
  rwa [Option.some.inj hw]

theorem of_append_le {w : Text} (h : MarkAt (some w) (s ++ u) k) (hk : k + w.length ≤ s.length) :
    MarkAt (some w) s k := by
  obtain ⟨w', hw, hne, hocc⟩ := h
  obtain rfl := Option.some.inj hw
  exact ⟨w, rfl, hne, hocc.of_append hk⟩

end MarkAt

section Find

variable {marker : Option Text} {s : Text} {start k : ℕ}

theorem findMarker_of_long {w : Text} (hne : w ≠ [])
    (hlong : s.length < w.length ∨ s.length - w.length < start) :
    ∀ j, start ≤ j → ¬MarkAt (some w) s j := by
  intro j hj h
  have := h.occursAt.add_length_le
  have := List.length_pos_of_ne_nil hne
  omega

theorem findMarker_eq_none :
    findMarker s start marker = none ↔ ∀ j, start ≤ j → ¬MarkAt marker s j := by
  cases marker with
  | none =>
    refine iff_of_true rfl fun j _ hmark => ?_
    obtain ⟨w, hw, -⟩ := hmark
    cases hw
  | some w =>
    rw [findMarker]
    split_ifs with hne hlong
    · exact iff_of_true rfl fun j _ hmark => hmark.ne_nil hne
    · exact iff_of_true rfl (findMarker_of_long hne hlong)
    · have hle : start ≤ s.length := by omega
      rw [Option.map_eq_none_iff, findAt_eq_none]
      constructor
      · intro h j hj hmark
        refine h (j - start) ((OccursAt.drop_iff hle).2 ?_)
        rw [show start + (j - start) = j by omega]
        exact hmark.occursAt
      · exact fun h j hocc => h (start + j) (Nat.le_add_right _ _)
          ⟨w, rfl, hne, (OccursAt.drop_iff hle).1 hocc⟩

theorem findMarker_eq_some :
    findMarker s start marker = some k ↔
      start ≤ k ∧ MarkAt marker s k ∧ ∀ j, start ≤ j → j < k → ¬MarkAt marker s j := by
  cases marker with
  | none =>
    refine iff_of_false (fun h => by cases h) fun h => ?_
    obtain ⟨-, ⟨w, hw, -⟩, -⟩ := h
    cases hw
  | some w =>
    rw [findMarker]
    split_ifs with hne hlong
    · exact iff_of_false (fun h => by cases h) fun h => h.2.1.ne_nil hne
    · exact iff_of_false (fun h => by cases h)
        fun h => findMarker_of_long hne hlong k h.1 h.2.1
    · have hle : start ≤ s.length := by omega
      rw [Option.map_eq_some_iff]
      constructor
      · rintro ⟨i, hi, rfl⟩
        obtain ⟨hocc, hfirst⟩ := findAt_eq_some.1 hi
        refine ⟨Nat.le_add_right _ _, ⟨w, rfl, hne, (OccursAt.drop_iff hle).1 hocc⟩, ?_⟩
        intro j hj hji hmark
        refine hfirst (j - start) (by omega) ((OccursAt.drop_iff hle).2 ?_)
        rw [show start + (j - start) = j by omega]
        exact hmark.occursAt
      · rintro ⟨hk, hmark, hfirst⟩
        refine ⟨k - start, findAt_eq_some.2 ⟨(OccursAt.drop_iff hle).2 ?_, ?_⟩, by omega⟩
        · rw [show start + (k - start) = k by omega]
          exact hmark.occursAt
        · exact fun j hj hocc => hfirst (start + j) (Nat.le_add_right _ _) (by omega)
            ⟨w, rfl, hne, (OccursAt.drop_iff hle).1 hocc⟩

/-- More text does not change what has been found. -/
theorem findMarker_append (h : findMarker s start marker = some k) (u : Text) :
    findMarker (s ++ u) start marker = some k := by
  obtain ⟨hk, hmark, hfirst⟩ := findMarker_eq_some.1 h
  refine findMarker_eq_some.2 ⟨hk, hmark.append u, fun j hj hjk hu => hfirst j hj hjk ?_⟩
  obtain ⟨w, rfl, hne, hocc⟩ := hu
  have := hmark.occursAt.add_length_le
  exact ⟨w, rfl, hne, hocc.of_append (by omega)⟩

theorem findMarker_le (h : MarkAt marker s k) (hk : start ≤ k) :
    ∃ i, findMarker s start marker = some i ∧ i ≤ k := by
  cases hfind : findMarker s start marker with
  | none => exact absurd h (findMarker_eq_none.1 hfind k hk)
  | some i =>
    refine ⟨i, rfl, Nat.le_of_not_lt fun hlt => ?_⟩
    exact (findMarker_eq_some.1 hfind).2.2 k hk hlt h

/-- A search from `start` is one in the text from there on. -/
theorem findMarker_drop (h : start ≤ s.length) :
    findMarker s start marker = (findMarker (s.drop start) 0 marker).map (start + ·) := by
  cases marker with
  | none => rfl
  | some w =>
    rw [findMarker, findMarker, List.drop_zero, List.length_drop]
    have hlong : (s.length < w.length ∨ s.length - w.length < start) ↔
        (s.length - start < w.length ∨ s.length - start - w.length < 0) := by omega
    simp only [hlong]
    split_ifs
    · rfl
    · rfl
    · rw [Option.map_map]
      exact Option.map_congr fun k _ => by rw [Function.comp_apply, Nat.zero_add]

/-- The search may begin later where nothing begins in between. -/
theorem findMarker_congr_start {start' : ℕ} (hle : start ≤ start')
    (hfree : ∀ j, start ≤ j → j < start' → ¬MarkAt marker s j) :
    findMarker s start marker = findMarker s start' marker := by
  cases h : findMarker s start' marker with
  | none =>
    refine findMarker_eq_none.2 fun j hj => ?_
    by_cases hlt : j < start'
    · exact hfree j hj hlt
    · exact findMarker_eq_none.1 h j (Nat.le_of_not_lt hlt)
  | some k =>
    obtain ⟨hk, hmark, hfirst⟩ := findMarker_eq_some.1 h
    refine findMarker_eq_some.2 ⟨hle.trans hk, hmark, fun j hj hjk => ?_⟩
    by_cases hlt : j < start'
    · exact hfree j hj hlt
    · exact hfirst j (Nat.le_of_not_lt hlt) hjk

end Find

section Tail

variable {s u w : Text} {k : ℕ}

theorem tailLoop_le (s w : Text) (n : ℕ) : tailLoop s w n ≤ n := by
  induction n with
  | zero => rfl
  | succ n ih =>
    rw [tailLoop]
    split_ifs
    · rfl
    · exact ih.trans (Nat.le_succ n)

theorem le_tailLoop {n : ℕ} (hk : k ≤ n) (h : s.drop (s.length - k) = w.take k) :
    k ≤ tailLoop s w n := by
  induction n with
  | zero => exact hk
  | succ n ih =>
    rw [tailLoop]
    split_ifs with hn
    · exact hk
    · refine ih (Nat.le_of_lt_succ (lt_of_le_of_ne hk ?_))
      rintro rfl
      exact hn h

theorem tailLoop_spec (s w : Text) (n : ℕ) :
    s.drop (s.length - tailLoop s w n) = w.take (tailLoop s w n) := by
  induction n with
  | zero => rw [tailLoop, Nat.sub_zero, List.drop_length, List.take_zero]
  | succ n ih =>
    rw [tailLoop]
    split_ifs with hn
    · exact hn
    · exact ih

variable {marker : Option Text}

theorem markerTailLen_le : markerTailLen s marker ≤ s.length := by
  cases marker with
  | none => exact Nat.zero_le _
  | some w =>
    rw [markerTailLen]
    split_ifs
    · exact Nat.zero_le _
    · exact (tailLoop_le _ _ _).trans (Nat.min_le_left _ _)

/-- Any proper beginning of the marker at the end of the text is held back. -/
theorem le_markerTailLen (hk : k ≤ s.length) (hw : k < w.length)
    (h : s.drop (s.length - k) <+: w) : k ≤ markerTailLen s (some w) := by
  have hlen : (s.drop (s.length - k)).length = k := by rw [List.length_drop]; omega
  have htake : s.drop (s.length - k) = w.take k := by
    rw [List.prefix_iff_eq_take.1 h, hlen]
  rw [markerTailLen]
  split_ifs
  · omega
  · exact le_tailLoop (by omega) htake

/-- A marker that begins before the tail is in the text as a whole. -/
theorem MarkAt.of_append (h : MarkAt marker (s ++ u) k)
    (hk : k + markerTailLen s marker < s.length) : MarkAt marker s k := by
  obtain ⟨w, rfl, hne, hocc⟩ := h
  by_cases hin : k + w.length ≤ s.length
  · exact ⟨w, rfl, hne, hocc.of_append hin⟩
  · have hpre : s.drop k <+: w := by
      have hall := hocc.2
      rw [List.drop_append_of_le_length (by omega)] at hall
      exact List.prefix_of_prefix_length_le (List.prefix_append _ _) hall
        (by rw [List.length_drop]; omega)
    have : s.length - k ≤ markerTailLen s (some w) := by
      refine le_markerTailLen (Nat.sub_le _ _) (by omega) ?_
      rwa [show s.length - (s.length - k) = k by omega]
    omega

/-- What is let go stays let go when more text comes. -/
theorem markerTailLen_append :
    markerTailLen (s ++ u) marker ≤ markerTailLen s marker + u.length := by
  cases marker with
  | none => exact Nat.zero_le _
  | some w =>
    set h := markerTailLen (s ++ u) (some w) with hh
    by_cases hu : h ≤ u.length
    · omega
    have hle : h ≤ (s ++ u).length := markerTailLen_le
    rw [List.length_append] at hle
    have hspec : (s ++ u).drop ((s ++ u).length - h) = w.take h ∧ h < w.length := by
      rw [markerTailLen] at hh
      split_ifs at hh with hw
      · omega
      · have := tailLoop_le (s ++ u) w (min (s ++ u).length (w.length - 1))
        rw [hh]
        exact ⟨tailLoop_spec _ _ _, by omega⟩
    have : h - u.length ≤ markerTailLen s (some w) := by
      refine le_markerTailLen (by omega) (by omega) ?_
      have hpre : (s ++ u).drop ((s ++ u).length - h) <+: w := by
        rw [hspec.1]
        exact List.take_prefix _ _
      rw [List.length_append, List.drop_append_of_le_length (by omega)] at hpre
      rw [show s.length - (h - u.length) = s.length + u.length - h by omega]
      exact (List.prefix_append _ _).trans hpre
    omega

end Tail

end Kappai
