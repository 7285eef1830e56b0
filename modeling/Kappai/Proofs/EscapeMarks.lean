import Kappai.Spec.EscapeMarks

/-! What `escape_marks` leaves has no mark in it, and a prompt of escaped texts splits as one of empty
texts. -/

namespace Kappai

namespace Decision

/-- The bytes of the marks. -/
theorem mark_bytes : openMark = [60, 60, 100, 49, 111, 109, 110, 105, 58] ∧
    ascii "<<d1omni " = [60, 60, 100, 49, 111, 109, 110, 105, 32] ∧ ascii "<|" = [60, 124] ∧
    ascii "|>" = [124, 62] := by
  decide +kernel

theorem openMark_eq : openMark = [60, 60, 100, 49, 111, 109, 110, 105, 58] := mark_bytes.1

theorem brokenMark_eq : ascii "<<d1omni " = [60, 60, 100, 49, 111, 109, 110, 105, 32] := mark_bytes.2.1

theorem opening_eq : ascii "<|" = [60, 124] := mark_bytes.2.2.1

theorem closing_eq : ascii "|>" = [124, 62] := mark_bytes.2.2.2

section Escape

variable {p rest name w : Text} {c : UInt8} {skip : ℕ}

@[simp] theorem escapeFrom_nil : escapeFrom skip [] = [] := by
  cases skip <;> rfl

theorem escapeFrom_skip : escapeFrom skip p = escapeMarks (p.drop skip) := by
  induction skip generalizing p with
  | zero => rfl
  | succ skip ih =>
    cases p with
    | nil => rfl
    | cons c rest => exact ih

theorem isPrefixOf_openMark : openMark.isPrefixOf p = true ↔ openMark <+: p := List.isPrefixOf_iff_prefix

theorem nameAt_eq_some : nameAt p = some name ↔
    name ≠ [] ∧ (∀ c ∈ name, isWord c = true) ∧ named name <+: p := by
  rw [nameAt, opening_eq, closing_eq, Option.ite_none_right_eq_some, Option.some.injEq]
  constructor
  · rintro ⟨⟨hopen, hne, hclose⟩, rfl⟩
    refine ⟨hne, fun c hc => List.all_eq_true.1 List.all_takeWhile c hc, ?_⟩
    obtain ⟨r, hr⟩ := List.takeWhile_prefix (l := p.drop 2) isWord
    have hafter : p.drop (2 + ((p.drop 2).takeWhile isWord).length) = r := by
      rw [← List.drop_drop]
      conv_lhs =>
        arg 2
        rw [← hr]
      exact List.drop_left
    rw [hafter] at hclose
    refine ⟨r.drop 2, ?_⟩
    rw [named, List.append_assoc, List.append_assoc, ← hclose, List.take_append_drop, hr, ← hopen,
      List.take_append_drop]
  · rintro ⟨hne, hword, r, rfl⟩
    have htake : ((named name ++ r).drop 2).takeWhile isWord = name := by
      have hbar : isWord 124 = false := rfl
      rw [named, List.append_assoc, List.append_assoc]
      show (name ++ (124 :: 62 :: r)).takeWhile isWord = name
      rw [List.takeWhile_append_of_pos hword, List.takeWhile_cons_of_neg (by simp [hbar]), List.append_nil]
    rw [htake]
    refine ⟨⟨?_, hne, ?_⟩, rfl⟩
    · rw [named, List.append_assoc, List.append_assoc]
      rfl
    · rw [named, ← List.drop_drop, List.append_assoc, List.append_assoc]
      show ((name ++ (124 :: 62 :: r)).drop name.length).take 2 = _
      rw [List.drop_left]
      rfl

/-- The three turns of the loop. -/
theorem escapeMarks_open (h : openMark <+: p) :
    escapeMarks p = ascii "<<d1omni " ++ escapeMarks (p.drop 9) := by
  cases p with
  | nil => exact absurd h (by rw [openMark_eq]; simp)
  | cons c rest =>
    rw [escapeMarks, escapeFrom, if_pos (isPrefixOf_openMark.2 h), escapeFrom_skip]
    rfl

theorem escapeMarks_named (h : ¬openMark <+: p) (hname : nameAt p = some name) :
    escapeMarks p = [60, 194, 166] ++ name ++ [194, 166, 62] ++ escapeMarks (p.drop (name.length + 4)) := by
  cases p with
  | nil => exact absurd (nameAt_eq_some.1 hname).2.2 (by simp [named])
  | cons c rest =>
    rw [escapeMarks, escapeFrom, if_neg (isPrefixOf_openMark.not.2 h), hname]
    simp only [escapeFrom_skip, List.drop_succ_cons]

theorem escapeMarks_copy (h : ¬openMark <+: c :: rest) (hname : nameAt (c :: rest) = none) :
    escapeMarks (c :: rest) = c :: escapeMarks rest := by
  rw [escapeMarks, escapeFrom, if_neg (isPrefixOf_openMark.not.2 h), hname]
  rfl

example : escapeMarks (ascii "a < b") = ascii "a < b" := by decide +kernel

theorem escapeMarks_induct {P : Text → Prop} (nil : P [])
    (opening : ∀ p, openMark <+: p → P (p.drop 9) → P p)
    (named : ∀ p name, ¬openMark <+: p → nameAt p = some name → P (p.drop (name.length + 4)) → P p)
    (copy : ∀ c rest, ¬openMark <+: c :: rest → nameAt (c :: rest) = none → P rest → P (c :: rest))
    (p : Text) : P p := by
  induction hn : p.length using Nat.strong_induction_on generalizing p with
  | _ n ih =>
    cases p with
    | nil => exact nil
    | cons c rest =>
      have hdrop : ∀ k, 0 < k → ((c :: rest).drop k).length < n := by
        intro k hk
        rw [← hn, List.length_drop, List.length_cons]
        omega
      by_cases hopen : openMark <+: c :: rest
      · exact opening _ hopen (ih _ (hdrop 9 (by decide)) _ rfl)
      · cases hname : nameAt (c :: rest) with
        | none => exact copy c rest hopen hname (ih _ (hdrop 1 Nat.one_pos) _ rfl)
        | some name => exact named _ name hopen hname (ih _ (hdrop _ (Nat.succ_pos _)) _ rfl)

/-- Where what is left has no `<`, it was copied. -/
theorem prefix_of_escapeMarks (hw : 60 ∉ w) (h : w <+: escapeMarks p) : w <+: p := by
  induction w generalizing p with
  | nil => exact List.nil_prefix
  | cons a w ih =>
    have ha : a ≠ 60 := fun h => hw (h ▸ List.mem_cons_self)
    cases p with
    | nil => exact h
    | cons c rest =>
      by_cases hopen : openMark <+: c :: rest
      · rw [escapeMarks_open hopen, brokenMark_eq] at h
        exact absurd (List.cons_prefix_cons.1 h).1 ha
      · cases hname : nameAt (c :: rest) with
        | some name =>
          rw [escapeMarks_named hopen hname] at h
          exact absurd (List.cons_prefix_cons.1 h).1 ha
        | none =>
          rw [escapeMarks_copy hopen hname] at h
          obtain ⟨hac, htail⟩ := List.cons_prefix_cons.1 h
          exact List.cons_prefix_cons.2 ⟨hac, ih (List.not_mem_of_not_mem_cons hw) htail⟩

/-- The first two bytes of a mark. -/
theorem IsMark.head (h : IsMark w) : ∃ t, w = 60 :: 60 :: 100 :: t ∨ w = 60 :: 124 :: t := by
  induction h with
  | opening => exact ⟨_, Or.inl openMark_eq⟩
  | named name hne hword => exact ⟨name ++ [124, 62], Or.inr (by simp [Decision.named])⟩

theorem not_word_open : isWord 60 = false := rfl

theorem MarkFree.cons {e : Text} (h : MarkFree e) (hc : ∀ w, IsMark w → ¬w <+: c :: e) :
    MarkFree (c :: e) := by
  intro w hw hin
  rcases List.infix_cons_iff.1 hin with hin | hin
  · exact hc w hw hin
  · exact h w hw hin

theorem MarkFree.append_of_not_mem {e : Text} (h : MarkFree e) (hp : 60 ∉ p) : MarkFree (p ++ e) := by
  induction p with
  | nil => exact h
  | cons c p ih =>
    refine (ih (List.not_mem_of_not_mem_cons hp)).cons fun w hw hpre => ?_
    obtain ⟨t, rfl | rfl⟩ := hw.head
    · exact hp ((List.cons_prefix_cons.1 hpre).1 ▸ List.mem_cons_self)
    · exact hp ((List.cons_prefix_cons.1 hpre).1 ▸ List.mem_cons_self)

/-- A mark does not begin with `<` and a byte other than `<` and `|`. -/
theorem not_mark_prefix {e : Text} (hc : c ≠ 60) (hc' : c ≠ 124) (hw : IsMark w) : ¬w <+: 60 :: c :: e := by
  intro hpre
  obtain ⟨t, rfl | rfl⟩ := hw.head
  · exact hc (List.cons_prefix_cons.1 (List.cons_prefix_cons.1 hpre).2).1.symm
  · exact hc' (List.cons_prefix_cons.1 (List.cons_prefix_cons.1 hpre).2).1.symm

/-- A copied byte begins no mark: the bytes of one would all have been copied. -/
theorem not_mark_of_copy (hopen : ¬openMark <+: c :: rest) (hname : nameAt (c :: rest) = none)
    (hw : IsMark w) : ¬w <+: c :: escapeMarks rest := by
  intro hpre
  induction hw with
  | opening =>
    rw [openMark_eq] at hpre
    obtain ⟨hc, hpre⟩ := List.cons_prefix_cons.1 hpre
    cases rest with
    | nil => simp [escapeMarks] at hpre
    | cons d rest =>
      by_cases hopen' : openMark <+: d :: rest
      · rw [escapeMarks_open hopen', brokenMark_eq] at hpre
        exact absurd (List.cons_prefix_cons.1 (List.cons_prefix_cons.1 hpre).2).1 (by decide)
      · cases hname' : nameAt (d :: rest) with
        | some name =>
          rw [escapeMarks_named hopen' hname'] at hpre
          exact absurd (List.cons_prefix_cons.1 (List.cons_prefix_cons.1 hpre).2).1 (by decide)
        | none =>
          rw [escapeMarks_copy hopen' hname'] at hpre
          obtain ⟨hd, hpre⟩ := List.cons_prefix_cons.1 hpre
          have hcopied := prefix_of_escapeMarks (by decide) hpre
          refine hopen ?_
          rw [openMark_eq]
          exact List.cons_prefix_cons.2 ⟨hc, List.cons_prefix_cons.2 ⟨hd, hcopied⟩⟩
  | named name hne hword =>
    have hsplit : named name = 60 :: (124 :: name ++ [124, 62]) := by simp [named]
    rw [hsplit] at hpre
    obtain ⟨hc, hrest⟩ := List.cons_prefix_cons.1 hpre
    have hcopied := prefix_of_escapeMarks (fun hmem => ?_) hrest
    · have hsome := nameAt_eq_some.2 ⟨hne, hword, show named name <+: c :: rest by
        rw [hsplit]
        exact List.cons_prefix_cons.2 ⟨hc, hcopied⟩⟩
      rw [hname] at hsome
      cases hsome
    · simp only [List.cons_append, List.mem_cons, List.mem_append, List.not_mem_nil, or_false] at hmem
      rcases hmem with h | h | h | h
      · exact absurd h (by decide)
      · have := hword _ h
        rw [not_word_open] at this
        cases this
      · exact absurd h (by decide)
      · exact absurd h (by decide)

theorem markFree_nil : MarkFree [] := by
  intro w hw hin
  obtain ⟨t, rfl | rfl⟩ := hw.head
  · simp at hin
  · simp at hin

theorem markFree_escapeMarks (p : Text) : MarkFree (escapeMarks p) := by
  induction p using escapeMarks_induct with
  | nil => exact markFree_nil
  | opening p hopen ih =>
    rw [escapeMarks_open hopen, brokenMark_eq]
    have htail := ih.append_of_not_mem (p := [100, 49, 111, 109, 110, 105, 32]) (by decide)
    refine (htail.cons fun w hw => not_mark_prefix (by decide) (by decide) hw).cons fun w hw hpre => ?_
    induction hw with
    | opening =>
      rw [openMark_eq] at hpre
      simp at hpre
    | named name => simp [Decision.named] at hpre
  | named p name hopen hname ih =>
    rw [escapeMarks_named hopen hname]
    have hword := (nameAt_eq_some.1 hname).2.1
    have htail := ih.append_of_not_mem (p := [194, 166] ++ name ++ [194, 166, 62]) fun hmem => by
      simp only [List.mem_append, List.mem_cons, List.not_mem_nil, or_false] at hmem
      rcases hmem with (h | h) | h
      · exact absurd h (by decide)
      · have := hword _ h
        rw [not_word_open] at this
        cases this
      · exact absurd h (by decide)
    exact htail.cons fun w hw => not_mark_prefix (by decide) (by decide) hw
  | copy c rest hopen hname ih =>
    rw [escapeMarks_copy hopen hname]
    exact ih.cons fun w hw => not_mark_of_copy hopen hname hw

theorem escapeMarks_of_markFree (h : MarkFree p) : escapeMarks p = p := by
  induction p using escapeMarks_induct with
  | nil => rfl
  | opening p hopen => exact absurd hopen.isInfix (h _ .opening)
  | named p name hopen hname =>
    obtain ⟨hne, hword, hpre⟩ := nameAt_eq_some.1 hname
    exact absurd hpre.isInfix (h _ (.named name hne hword))
  | copy c rest hopen hname ih =>
    rw [escapeMarks_copy hopen hname, ih fun w hw hin => h w hw (hin.trans (List.suffix_cons c rest).isInfix)]

theorem escapeMarks_idem (p : Text) : escapeMarks (escapeMarks p) = escapeMarks p :=
  escapeMarks_of_markFree (markFree_escapeMarks p)

end Escape

section Pieces

variable {sep x v y : Text} {init rest : List Text} {last first : Text}

theorem cutAt_of_none {fuel : ℕ} (h : findAt sep x = none) : cutAt sep fuel x = [x] := by
  cases fuel with
  | zero => rfl
  | succ fuel => rw [cutAt, h]

theorem cutAt_of_some {fuel k : ℕ} (h : findAt sep x = some k) :
    cutAt sep (fuel + 1) x = x.take k :: cutAt sep fuel (x.drop (k + sep.length)) := by
  rw [cutAt, h]

/-- The text has no more cuts than bytes. -/
theorem cutAt_fuel (hsep : sep ≠ []) {f g : ℕ} (hf : x.length ≤ f) (hg : x.length ≤ g) :
    cutAt sep f x = cutAt sep g x := by
  induction f generalizing x g with
  | zero =>
    obtain rfl := List.eq_nil_of_length_eq_zero (Nat.le_zero.1 hf)
    have hnone : findAt sep [] = none := if_neg hsep
    rw [cutAt_of_none hnone, cutAt_of_none hnone]
  | succ f ih =>
    cases hfind : findAt sep x with
    | none => rw [cutAt_of_none hfind, cutAt_of_none hfind]
    | some k =>
      have hpos := List.length_pos_of_ne_nil hsep
      have hle := (findAt_eq_some.1 hfind).1.add_length_le
      obtain ⟨g, rfl⟩ := Nat.exists_eq_add_of_le' (show 1 ≤ g by omega)
      have hlen : (x.drop (k + sep.length)).length ≤ f ∧ (x.drop (k + sep.length)).length ≤ g := by
        rw [List.length_drop]
        omega
      rw [cutAt_of_some hfind, cutAt_of_some hfind, ih hlen.1 hlen.2]

/-- The pieces of a text. -/
def cuts (sep x : Text) : List Text := cutAt sep x.length x

theorem cuts_of_none (h : findAt sep x = none) : cuts sep x = [x] := cutAt_of_none h

theorem cuts_of_some {k : ℕ} (hsep : sep ≠ []) (h : findAt sep x = some k) :
    cuts sep x = x.take k :: cuts sep (x.drop (k + sep.length)) := by
  have hpos := List.length_pos_of_ne_nil hsep
  have hle := (findAt_eq_some.1 h).1.add_length_le
  obtain ⟨m, hm⟩ := Nat.exists_eq_add_of_le' (show 1 ≤ x.length by omega)
  rw [cuts, hm, cutAt_of_some h, cuts,
    cutAt_fuel hsep (by rw [List.length_drop]; omega) (Nat.le_refl _)]

theorem cuts_ne_nil (sep x : Text) : cuts sep x ≠ [] := by
  rw [cuts]
  cases x.length with
  | zero => simp [cutAt]
  | succ n =>
    rw [cutAt]
    split <;> simp

/-- The last piece ends the text, and only a separator is before it. -/
theorem cuts_last (hsep : sep ≠ []) (h : cuts sep x = init ++ [last]) :
    init = [] ∧ last = x ∨ sep ++ last <:+ x := by
  induction hn : x.length using Nat.strong_induction_on generalizing x init with
  | _ n ih =>
    cases hfind : findAt sep x with
    | none =>
      rw [cuts_of_none hfind] at h
      have := List.append_eq_singleton_iff.1 h.symm
      simp only [List.cons_ne_nil, and_false, or_false] at this
      exact Or.inl ⟨this.1, List.singleton_inj.1 this.2⟩
    | some k =>
      obtain ⟨hocc, -⟩ := findAt_eq_some.1 hfind
      have hle := hocc.add_length_le
      have hpos := List.length_pos_of_ne_nil hsep
      rw [cuts_of_some hsep hfind] at h
      cases init with
      | nil => exact absurd (List.cons.inj h).2 (cuts_ne_nil _ _)
      | cons a init =>
        have hlt : (x.drop (k + sep.length)).length < n := by
          rw [List.length_drop]
          omega
        have hsuffix := List.drop_suffix (k + sep.length) x
        rcases ih _ hlt (List.cons.inj h).2 rfl with ⟨-, hlast⟩ | hlast
        · obtain ⟨r, hr⟩ := hocc.2
          have hr' : x.drop (k + sep.length) = r := by
            rw [← List.drop_drop, ← hr, List.drop_left]
          refine Or.inr ?_
          rw [hlast, hr', hr]
          exact List.drop_suffix k x
        · exact Or.inr (hlast.trans hsuffix)

theorem cuts_first (hsep : sep ≠ []) (h : cuts sep y = first :: rest) : first <+: y := by
  cases hfind : findAt sep y with
  | none =>
    rw [cuts_of_none hfind] at h
    rw [(List.cons.inj h).1]
  | some k =>
    rw [cuts_of_some hsep hfind] at h
    rw [← (List.cons.inj h).1]
    exact List.take_prefix k y

theorem uncrossed_drop {d : ℕ} (hd : d ≤ x.length) (h : Uncrossed sep x [] y) :
    Uncrossed sep (x.drop d) [] y := by
  intro k hk
  rw [List.append_nil] at hk
  have hall : OccursAt sep (x ++ [] ++ y) (d + k) := by
    rw [List.append_nil]
    refine (OccursAt.drop_iff (by rw [List.length_append]; omega)).1 ?_
    rwa [List.drop_append_of_le_length hd]
  rw [List.length_drop, List.length_nil]
  rcases h _ hall with h | h
  · exact Or.inl (by omega)
  · rw [List.length_nil] at h
    exact Or.inr (by omega)

/-- A text without a separator across its middle: the piece there has a part on either side. -/
theorem cuts_append (hsep : sep ≠ []) (h : Uncrossed sep x [] y) (hx : cuts sep x = init ++ [last])
    (hy : cuts sep y = first :: rest) : cuts sep (x ++ y) = init ++ (last ++ first) :: rest := by
  induction hn : x.length using Nat.strong_induction_on generalizing x init with
  | _ n ih =>
    cases hfind : findAt sep x with
    | none =>
      rw [cuts_of_none hfind] at hx
      have := List.append_eq_singleton_iff.1 hx.symm
      simp only [List.cons_ne_nil, and_false, or_false] at this
      obtain ⟨rfl, hlast⟩ := this
      obtain rfl : last = x := List.singleton_inj.1 hlast
      have hall := findAt_append_right hfind h
      cases hfindy : findAt sep y with
      | none =>
        rw [hfindy] at hall
        rw [cuts_of_none hfindy] at hy
        rw [cuts_of_none hall, ← (List.cons.inj hy).1, ← (List.cons.inj hy).2]
        rfl
      | some k =>
        rw [hfindy] at hall
        rw [cuts_of_some hsep hfindy] at hy
        rw [cuts_of_some hsep hall, ← (List.cons.inj hy).1, ← (List.cons.inj hy).2, List.take_length_add_append,
          Nat.add_assoc, List.drop_length_add_append]
        rfl
    | some k =>
      have hle := (findAt_eq_some.1 hfind).1.add_length_le
      have hpos := List.length_pos_of_ne_nil hsep
      rw [cuts_of_some hsep hfind] at hx
      cases init with
      | nil => exact absurd (List.cons.inj hx).2 (cuts_ne_nil _ _)
      | cons a init =>
        have hlt : (x.drop (k + sep.length)).length < n := by
          rw [List.length_drop]
          omega
        have hrest := ih _ hlt (uncrossed_drop hle h) (List.cons.inj hx).2 rfl
        rw [cuts_of_some hsep (findAt_append_left hfind), List.take_append_of_le_length (by omega),
          List.drop_append_of_le_length hle, hrest, (List.cons.inj hx).1]
        rfl

/-- A text that no separator touches goes into the piece where it is put. -/
theorem cuts_insert (hsep : sep ≠ []) (h : Uncrossed sep x v y) (hx : cuts sep x = init ++ [last])
    (hy : cuts sep y = first :: rest) :
    cuts sep (x ++ v ++ y) = init ++ (last ++ v ++ first) :: rest := by
  have hv : cuts sep v = [v] := cuts_of_none (findAt_eq_none.2 (h.not_occursAt hsep))
  have hxv := cuts_append hsep h.left hx hv
  exact cuts_append hsep h.right hxv hy

end Pieces

section Values

variable {f : Text → Text}

theorem getElem?_mapItems (items : List Value) (i : ℕ) :
    (mapItems f items)[i]? = (items[i]?).map (Value.mapTexts f) := by
  induction items generalizing i with
  | nil => rfl
  | cons v items ih =>
    rw [mapItems]
    cases i with
    | zero => rfl
    | succ i => exact ih i

theorem getElem?_mapEntries (entries : List (Text × Value)) (i : ℕ) :
    (mapEntries f entries)[i]? = (entries[i]?).map fun e => (f e.1, e.2.mapTexts f) := by
  induction entries generalizing i with
  | nil => rfl
  | cons e entries ih =>
    rw [mapEntries]
    cases i with
    | zero => rfl
    | succ i => exact ih i

theorem markFree_of_not_mem {p : Text} (hp : 60 ∉ p) : MarkFree p := by
  have := markFree_nil.append_of_not_mem hp
  rwa [List.append_nil] at this

/-- Wherever a template looks into escaped values, it finds no mark. -/
theorem markFree_textAt (v : Value) (way : List Sel) : MarkFree ((escapeMarksValues v).textAt way) := by
  induction way generalizing v with
  | nil =>
    cases v with
    | string s => exact markFree_escapeMarks s
    | plain t => exact markFree_of_not_mem t.2
    | list items => exact markFree_nil
    | dict entries => exact markFree_nil
  | cons sel way ih =>
    cases v with
    | string s => exact markFree_nil
    | plain t => exact markFree_nil
    | list items =>
      cases sel with
      | item i =>
        show MarkFree (((mapItems escapeMarks items)[i]?.map fun v => v.textAt way).getD [])
        rw [getElem?_mapItems]
        cases items[i]? with
        | none => exact markFree_nil
        | some v => exact ih v
      | entry i => exact markFree_nil
      | key i => exact markFree_nil
    | dict entries =>
      cases sel with
      | item i => exact markFree_nil
      | entry i =>
        show MarkFree (((mapEntries escapeMarks entries)[i]?.map fun e => e.2.textAt way).getD [])
        rw [getElem?_mapEntries]
        cases entries[i]? with
        | none => exact markFree_nil
        | some e => exact ih e.2
      | key i =>
        cases way with
        | nil =>
          show MarkFree (((mapEntries escapeMarks entries)[i]?.map (·.1)).getD [])
          rw [getElem?_mapEntries]
          cases entries[i]? with
          | none => exact markFree_nil
          | some e => exact markFree_escapeMarks e.1
        | cons => exact markFree_nil

end Values

section Prompt

variable {lim : Limits} {x v y : Text}

/-- The marks of a prompt, with the name in the score mark. -/
theorem prompt_checks :
    (∀ m ∈ promptMarks, m ≠ [] ∧ 10 ∉ m ∧ (openMark <+: m ∨ m = scoreMark)) ∧
    (scoreMark = named (ascii "mask") ∧ ascii "mask" ≠ [] ∧ ∀ c ∈ ascii "mask", isWord c = true) ∧
    sepMark ∈ promptMarks ∧ scoreMark ∈ promptMarks ∧
    ∀ m ∈ [stateMark, questionMark, optionMark], m ∈ promptMarks := by
  decide +kernel

theorem promptMarks_spec : ∀ m ∈ promptMarks, m ≠ [] ∧ 10 ∉ m ∧ (openMark <+: m ∨ m = scoreMark) :=
  prompt_checks.1

theorem scoreMark_isMark : IsMark scoreMark := by
  obtain ⟨hname, hne, hword⟩ := prompt_checks.2.1
  rw [hname]
  exact .named _ hne hword

theorem MarkFree.not_promptMark (h : MarkFree v) {m : Text} (hm : m ∈ promptMarks) : ¬m <:+: v := by
  intro hin
  rcases (promptMarks_spec m hm).2.2 with hopen | rfl
  · exact h _ .opening (hopen.isInfix.trans hin)
  · exact h _ scoreMark_isMark hin

theorem kindOf_snd (ops : Ops) (p : Text) : (kindOf ops lim p).2 =
    if (afterMark ops.stateMark p).isSome then (lim.plain, true)
    else if (afterMark ops.questionMark p).isSome then (lim.question, false)
    else if (afterMark ops.optionMark p).isSome then (lim.option, false) else (lim.plain, false) := by
  rw [kindOf]
  cases afterMark ops.stateMark p with
  | some t => rfl
  | none =>
    cases afterMark ops.questionMark p with
    | some t => rfl
    | none => cases afterMark ops.optionMark p <;> rfl

/-- The kind of a piece by the marks that begin it. -/
theorem kindOf_congr {p q : Text}
    (h : ∀ m ∈ [stateMark, questionMark, optionMark], m <+: p ↔ m <+: q) :
    (kindOf omniOps lim p).2 = (kindOf omniOps lim q).2 := by
  have hafter : ∀ m ∈ [stateMark, questionMark, optionMark],
      (afterMark (some m) p).isSome = (afterMark (some m) q).isSome := by
    intro m hm
    have hiff := h m hm
    rw [← List.isPrefixOf_iff_prefix, ← List.isPrefixOf_iff_prefix, ← Bool.eq_iff_iff] at hiff
    simp only [afterMark, Option.bind_some, hiff]
    split_ifs <;> rfl
  simp only [List.mem_cons, List.not_mem_nil, or_false, forall_eq_or_imp, forall_eq] at hafter
  obtain ⟨hs, hq, ho⟩ := hafter
  simp only [kindOf_snd, omniOps, hs, hq, ho]

/-- A mark that begins the piece where `v` is put begins it without `v`. -/
theorem mark_at_piece {m last first : Text} (h : Uncrossed m x v y) (hlast : last <:+ x)
    (hfirst : first <+: y) (hkind : last = [] → ¬m <+: y) : m <+: last ++ v ++ first ↔ m <+: last := by
  constructor
  · intro hpre
    obtain ⟨x₀, rfl⟩ := hlast
    obtain ⟨y₀, rfl⟩ := hfirst
    have hocc : OccursAt m (x₀ ++ last ++ v ++ (first ++ y₀)) x₀.length := by
      refine ⟨by simp only [List.length_append]; omega, ?_⟩
      simp only [List.append_assoc]
      rw [List.drop_left]
      simp only [List.append_assoc] at hpre
      have := hpre.trans (List.prefix_append _ y₀)
      simpa only [List.append_assoc] using this
    rcases h _ hocc with hle | hle
    · rw [List.length_append] at hle
      rw [List.append_assoc] at hpre
      exact List.prefix_of_prefix_length_le hpre (List.prefix_append _ _) (by omega)
    · rw [List.length_append] at hle
      obtain rfl := List.eq_nil_of_length_eq_zero (show last.length = 0 by omega)
      obtain rfl := List.eq_nil_of_length_eq_zero (show v.length = 0 by omega)
      exact absurd (hpre.trans (List.prefix_append first y₀)) (hkind rfl)
  · intro hpre
    rw [List.append_assoc]
    exact hpre.trans (List.prefix_append _ _)

/-- The same pieces by number and kind, and the same score marks. -/
def SameShape (p q : Text) : Prop :=
  (∀ lim, kinds lim p = kinds lim q) ∧ occurrences scoreMark p = occurrences scoreMark q

theorem SameShape.trans {p q r : Text} (h : SameShape p q) (h' : SameShape q r) : SameShape p r :=
  ⟨fun lim => (h.1 lim).trans (h'.1 lim), h.2.trans h'.2⟩

theorem SameShape.symm {p q : Text} (h : SameShape p q) : SameShape q p :=
  ⟨fun lim => (h.1 lim).symm, h.2.symm⟩

/-- A text that no mark touches does not show in what the prompt is read as. -/
theorem sameShape_insert (hv : ∀ m ∈ promptMarks, Uncrossed m x v y)
    (hnone : ∀ m ∈ promptMarks, Uncrossed m x [] y)
    (hkind : x = [] ∨ sepMark <:+ x → ∀ m ∈ [stateMark, questionMark, optionMark], ¬m <+: y) :
    SameShape (x ++ v ++ y) (x ++ y) := by
  obtain ⟨hsepmem, hscoremem, hkinds⟩ := prompt_checks.2.2
  have hsep := (promptMarks_spec _ hsepmem).1
  have hscore := (promptMarks_spec _ hscoremem).1
  obtain ⟨init, last, hx⟩ : ∃ init last, cuts sepMark x = init ++ [last] :=
    ⟨_, _, (List.dropLast_append_getLast (cuts_ne_nil _ _)).symm⟩
  obtain ⟨first, rest, hy⟩ := List.exists_cons_of_ne_nil (cuts_ne_nil sepMark y)
  have hlast : last <:+ x ∧ (last = [] → x = [] ∨ sepMark <:+ x) := by
    rcases cuts_last hsep hx with ⟨-, rfl⟩ | h
    · exact ⟨List.suffix_refl _, fun h => Or.inl h⟩
    · exact ⟨(List.suffix_append _ _).trans h, fun hl => Or.inr (by rwa [hl, List.append_nil] at h)⟩
  have hfirst := cuts_first hsep hy
  constructor
  · intro lim
    have hfull : kinds lim (x ++ v ++ y) =
        (init ++ (last ++ v ++ first) :: rest).map fun p => (kindOf omniOps lim p).2 :=
      congrArg (List.map _) (cuts_insert hsep (hv _ hsepmem) hx hy)
    have hempty : kinds lim (x ++ [] ++ y) =
        (init ++ (last ++ [] ++ first) :: rest).map fun p => (kindOf omniOps lim p).2 :=
      congrArg (List.map _) (cuts_insert hsep (hnone _ hsepmem) hx hy)
    rw [List.append_nil] at hempty
    rw [hfull, hempty, List.map_append, List.map_append, List.map_cons, List.map_cons,
      kindOf_congr fun m hm => ?_]
    have hno : last = [] → ¬m <+: y := fun hl => hkind (hlast.2 hl) m hm
    rw [mark_at_piece (hv m (hkinds m hm)) hlast.1 hfirst hno,
      mark_at_piece (hnone m (hkinds m hm)) hlast.1 hfirst hno]
  · have hempty := (hnone _ hscoremem).occurrences hscore
    rw [List.append_nil] at hempty
    rw [(hv _ hscoremem).occurrences hscore, hempty]

/-- The conditions of `Template.Parts` from the fixed text `f` on. -/
structure PartsFrom (f : Text) (fixed : List Text) : Prop where
  breaks : ∀ g ∈ fixed.dropLast, 10 ∈ g
  before : ∀ g ∈ (f :: fixed).zip fixed, ∀ m ∈ promptMarks, ∀ w, w <+: m → w ≠ [] → w ≠ m → ¬w <:+ g.1
  behind : ∀ g ∈ (f :: fixed).zip fixed, ∀ m ∈ promptMarks, ∀ w, w <:+ m → w ≠ [] → w ≠ m → ¬w <+: g.2
  kinds : ∀ g ∈ (f :: fixed).zip fixed, g.1 = [] ∨ sepMark <:+ g.1 →
    ∀ m ∈ [stateMark, questionMark, optionMark], ¬m <+: g.2

theorem PartsFrom.tail {f g : Text} {fixed : List Text} (h : PartsFrom f (g :: fixed)) :
    PartsFrom g fixed where
  breaks k hk := by
    refine h.breaks k ?_
    cases fixed with
    | nil => simp at hk
    | cons a fixed =>
      rw [List.dropLast_cons_of_ne_nil (List.cons_ne_nil a fixed)]
      exact List.mem_cons_of_mem _ hk
  before k hk := h.before k (List.mem_cons_of_mem _ hk)
  behind k hk := h.behind k (List.mem_cons_of_mem _ hk)
  kinds k hk := h.kinds k (List.mem_cons_of_mem _ hk)

/-- What ends a text that ends with a line break and `f`, and has no line break, ends `f`. -/
theorem suffix_of_break {w a f : Text} (hw : 10 ∉ w) (hf : a = [] ∨ 10 ∈ f) (h : w <:+ a ++ f) : w <:+ f := by
  rcases hf with rfl | hf
  · exact h
  · rcases List.suffix_or_suffix_of_suffix h (List.suffix_append a f) with h | h
    · exact h
    · exact absurd (h.subset hf) hw

theorem prefix_of_break {w a f : Text} (hw : 10 ∉ w) (hf : a = [] ∨ 10 ∈ f) (h : w <+: f ++ a) : w <+: f := by
  rcases hf with rfl | hf
  · rwa [List.append_nil] at h
  · rcases List.prefix_or_prefix_of_prefix h (List.prefix_append f a) with h | h
    · exact h
    · exact absurd (h.subset hf) hw

/-- Texts without marks between fixed texts, from the first on: `a ++ f` is what stands before them. -/
theorem joined_sameShape (slots : List (Text × Text)) {a f : Text} (hfree : ∀ s ∈ slots, MarkFree s.1)
    (hf : slots = [] ∨ a = [] ∨ 10 ∈ f) (h : PartsFrom f (slots.map (·.2))) :
    SameShape (a ++ f ++ joined slots) (a ++ f ++ (slots.map (·.2)).flatten) := by
  induction slots generalizing a f with
  | nil => exact ⟨fun _ => rfl, rfl⟩
  | cons s slots ih =>
    have hcontext : a = [] ∨ 10 ∈ f := hf.resolve_left (List.cons_ne_nil s slots)
    have hpair : (f, s.2) ∈ (f :: (s :: slots).map (·.2)).zip ((s :: slots).map (·.2)) := List.mem_cons_self
    have hbreak : slots = [] ∨ 10 ∈ s.2 := by
      cases slots with
      | nil => exact Or.inl rfl
      | cons s' slots => exact Or.inr (h.breaks s.2 List.mem_cons_self)
    have hrest : joined slots = [] ∨ 10 ∈ s.2 := hbreak.imp_left fun hs => by rw [hs]; rfl
    have hclear : ∀ v, MarkFree v → ∀ m ∈ promptMarks, Uncrossed m (a ++ f) v (s.2 ++ joined slots) := by
      intro v hv m hm
      have hline := (promptMarks_spec m hm).2.1
      refine .of_borders (hv.not_promptMark hm) (fun w hw hne hm' hend => ?_) fun w hw hne hm' hbegin => ?_
      · exact h.before _ hpair m hm w hw hne hm'
          (suffix_of_break (fun hmem => hline (hw.subset hmem)) hcontext hend)
      · exact h.behind _ hpair m hm w hw hne hm'
          (prefix_of_break (fun hmem => hline (hw.subset hmem)) hrest hbegin)
    obtain ⟨hsepmem, -, hkinds⟩ := prompt_checks.2.2
    have hone : SameShape (a ++ f ++ s.1 ++ (s.2 ++ joined slots)) (a ++ f ++ (s.2 ++ joined slots)) := by
      refine sameShape_insert (hclear _ (hfree s List.mem_cons_self)) (hclear _ markFree_nil)
        fun hhead m hm hpre => ?_
      have hline := (promptMarks_spec m (hkinds m hm)).2.1
      refine h.kinds _ hpair ?_ m hm (prefix_of_break hline hrest hpre)
      rcases hhead with hnil | hsuffix
      · exact Or.inl (List.append_eq_nil_iff.1 hnil).2
      · exact Or.inr (suffix_of_break (promptMarks_spec _ hsepmem).2.1 hcontext hsuffix)
    have hmore := ih (a := a ++ f) (f := s.2) (fun s' hs' => hfree s' (List.mem_cons_of_mem _ hs'))
      (hbreak.imp_right Or.inr) h.tail
    have hleft : a ++ f ++ joined (s :: slots) = a ++ f ++ s.1 ++ (s.2 ++ joined slots) := by
      simp only [joined, List.flatMap_cons, List.append_assoc]
    have hright : a ++ f ++ ((s :: slots).map (·.2)).flatten = a ++ f ++ s.2 ++ (slots.map (·.2)).flatten := by
      simp only [List.map_cons, List.flatten_cons, List.append_assoc]
    rw [hleft, hright]
    rw [List.append_assoc (a ++ f) s.2 (joined slots)] at hmore
    exact hone.trans hmore

theorem render_sameShape {t : Template} (ht : t.Parts) (req : Request) :
    SameShape (t.render req) (t.before ++ (t.slots.map (·.2)).flatten) := by
  have hsnd : (t.slots.map fun s => ((promptValues req).textAt s.1, s.2)).map (·.2) = t.slots.map (·.2) := by
    rw [List.map_map]
    rfl
  have h := joined_sameShape (t.slots.map fun s => ((promptValues req).textAt s.1, s.2)) (a := [])
    (f := t.before) (fun s hs => ?_) (Or.inr (Or.inl rfl))
    (by rw [hsnd]; exact ⟨ht.breaks, ht.before, ht.behind, ht.kinds⟩)
  · rw [hsnd] at h
    exact h
  · obtain ⟨s', -, rfl⟩ := List.mem_map.1 hs
    exact markFree_textAt _ s'.1

/-- What `escape_marks` gives has no marks and is not changed again, and it changes no text without marks.
So the texts of a request decide nothing about the pieces of a prompt and its score marks. -/
theorem escapeMarks_spec :
    (∀ p, MarkFree (escapeMarks p) ∧ escapeMarks (escapeMarks p) = escapeMarks p ∧
      (MarkFree p → escapeMarks p = p)) ∧
    ∀ t : Template, t.Parts → ∀ req : Request,
      (∀ lim, kinds lim (t.render req) = kinds lim (t.render req.blank)) ∧
      occurrences scoreMark (t.render req) = occurrences scoreMark (t.render req.blank) :=
  ⟨fun p => ⟨markFree_escapeMarks p, escapeMarks_idem p, escapeMarks_of_markFree⟩,
    fun _ ht req => (render_sameShape ht req).trans (render_sameShape ht req.blank).symm⟩

end Prompt

section Borders

/-- The state behind a `<` of the template, with no other value. -/
def borderTemplate : Template := ⟨[60], [([.entry 3], [])]⟩

def borderRequest : Request := ⟨[], [], .string [], .string (ascii "|mask|>"), []⟩

/-- The text is no mark, but the template makes one of it. -/
theorem render_of_border : (∀ f ∈ (borderTemplate.slots.map (·.2)).dropLast, 10 ∈ f) ∧
    occurrences scoreMark (borderTemplate.render borderRequest) = 1 ∧
    occurrences scoreMark (borderTemplate.render borderRequest.blank) = 0 := by
  decide +kernel

/-- The state with the mark before it, then the instructions. -/
def lineTemplate : Template := ⟨stateMark, [([.entry 3], 10 :: sepMark ++ questionMark), ([.entry 2], [10])]⟩

theorem lineTemplate_parts : lineTemplate.Parts where
  breaks := by decide +kernel
  before f hf m hm w hw := by
    have key : ∀ f ∈ lineTemplate.pairs, ∀ m ∈ promptMarks, ∀ w ∈ m.inits, w ≠ [] → w ≠ m → ¬w <:+ f.1 := by
      decide +kernel
    exact key f hf m hm w ((List.mem_inits w m).2 hw)
  behind f hf m hm w hw := by
    have key : ∀ f ∈ lineTemplate.pairs, ∀ m ∈ promptMarks, ∀ w ∈ m.tails, w ≠ [] → w ≠ m → ¬w <+: f.2 := by
      decide +kernel
    exact key f hf m hm w ((List.mem_tails w m).2 hw)
  kinds := by decide +kernel

/-- A request whose texts are marks. -/
def markRequest : Request := ⟨[], [], .string scoreMark, .string sepMark, []⟩

theorem escapeMarks_spec_of_lines : escapeMarks [97, 98] = [97, 98] ∧
    kinds ⟨1, 2, 3, 4⟩ (lineTemplate.render markRequest) =
      kinds ⟨1, 2, 3, 4⟩ (lineTemplate.render markRequest.blank) :=
  ⟨(escapeMarks_spec.1 [97, 98]).2.2 (markFree_of_not_mem (by decide)),
    (escapeMarks_spec.2 lineTemplate lineTemplate_parts markRequest).1 _⟩

end Borders

end Decision

end Kappai
