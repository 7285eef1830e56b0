import Kappai.Sanity.ThinkSplit

/-! The streamed reasoning and content of a generation against what its history keeps. -/

namespace Kappai

namespace ThinkFormat

variable (f : ThinkFormat)

/-- Where the reasoning begins that `chat_template_split_thinking` cuts out of `raw`. -/
def opened (raw before : Text) : ℕ :=
  let rest := raw.drop (if f.start.isPrefixOf raw then f.start.length else 0)
  if f.labelLine then
    match afterLine rest with
    | none => before.length
    | some line => raw.length - line.length
  else raw.length - (skipNewlines rest).length

variable {f} {keep : Bool} {render : ℕ → Option Text → List ChatMessage → Bool → Option Text}
  {raw before after : Text}

theorem splitThinking_none (h : strstr f.stop raw = none) :
    (f.template keep render).splitThinking raw = (none, raw) := by
  simp [ChatTemplate.splitThinking, template, h]

theorem splitThinking_some (h : strstr f.stop raw = some (before, f.stop ++ after)) :
    (f.template keep render).splitThinking raw =
      (some (before.drop (f.opened raw before)), skipNewlines after) := by
  simp only [ChatTemplate.splitThinking, template, h, List.drop_left, opened, afterLine]
  cases (raw.drop (if f.start.isPrefixOf raw = true then f.start.length else 0)).dropWhile (· != 10) <;>
    rfl

theorem stop_byte : ∃ b ∈ f.stop, (b == 10) = false := exists_byte f.stop_ne f.stop_line

theorem start_byte : ∃ b ∈ f.start, (b == 10) = false := exists_byte f.start_ne f.start_line

theorem skipNewlines_stop : skipNewlines (f.stop ++ after) = f.stop ++ after := by
  obtain ⟨b, t, ht⟩ := List.exists_cons_of_ne_nil f.stop_ne
  have hb : b ≠ 10 := fun he => f.stop_line (by rw [ht, he]; exact List.mem_cons_self)
  rw [ht, List.cons_append, skipNewlines, List.dropWhile_cons, if_neg (by simpa using hb)]

/-- The tag at the beginning of a text, if it is there. -/
def tag (f : ThinkFormat) (raw : Text) : Text := if f.start.isPrefixOf raw then f.start else []

theorem opened_eq (raw before : Text) :
    f.opened raw before =
      if f.labelLine then
        match afterLine (raw.drop (f.tag raw).length) with
        | none => before.length
        | some line => raw.length - line.length
      else raw.length - (skipNewlines (raw.drop (f.tag raw).length)).length := by
  unfold opened tag
  split <;> rfl

/-- With a label the reasoning is what follows its line. -/
theorem drop_opened_label (hl : f.labelLine = true) {u r rest : Text} (hu : f.tag raw = u)
    (ht : raw = u ++ (r ++ rest)) : (u ++ r).drop (f.opened raw (u ++ r)) = (afterLine r).getD [] := by
  have hdrop : raw.drop u.length = r ++ rest := by rw [ht, List.drop_left]
  have hlen : raw.length = u.length + (r.length + rest.length) := by
    rw [ht]
    simp only [List.length_append]
  rw [opened_eq, if_pos hl, hu, hdrop]
  cases hr : afterLine r with
  | none =>
    rw [afterLine_append_of_none hr, Option.getD_none]
    refine List.drop_eq_nil_of_le ?_
    cases hrest : afterLine rest with
    | none => exact le_rfl
    | some line =>
      obtain ⟨w, hw⟩ := afterLine_suffix hrest
      have hline := congrArg List.length hw
      simp only [List.length_append, List.length_cons] at hline ⊢
      omega
  | some line =>
    obtain ⟨w, hw⟩ := afterLine_suffix hr
    have hline := congrArg List.length hw
    simp only [List.length_append, List.length_cons] at hline
    have hcut : raw.length - (line ++ rest).length = (u ++ (w ++ [10])).length := by
      simp only [List.length_append, List.length_singleton]
      omega
    rw [afterLine_append hr, Option.getD_some]
    simp only
    rw [hcut, hw, show u ++ (w ++ 10 :: line) = u ++ (w ++ [10]) ++ line by simp, List.drop_left]

/-- Without one it is everything from the first byte that is no line break. -/
theorem drop_opened_plain (hl : f.labelLine = false) {u r rest : Text} (hu : f.tag raw = u)
    (ht : raw = u ++ (r ++ rest)) (hrest : skipNewlines rest = rest) :
    (u ++ r).drop (f.opened raw (u ++ r)) = skipNewlines r := by
  have hdrop : raw.drop u.length = r ++ rest := by rw [ht, List.drop_left]
  have hlen : raw.length = u.length + (r.length + rest.length) := by
    rw [ht]
    simp only [List.length_append]
  rw [opened_eq, if_neg (by simp [hl]), hu, hdrop]
  by_cases hr : ∃ b ∈ r, (b == 10) = false
  · have hskip : skipNewlines (r ++ rest) = skipNewlines r ++ rest :=
      Trimming.dropWhile_append_of_exists hr
    have hsuff : r.takeWhile (· == 10) ++ skipNewlines r = r := List.takeWhile_append_dropWhile
    have hcut : raw.length - (skipNewlines r ++ rest).length =
        (u ++ r.takeWhile (· == 10)).length := by
      have hr := congrArg List.length hsuff
      simp only [List.length_append] at hr ⊢
      omega
    have hsplit : u ++ r = u ++ r.takeWhile (· == 10) ++ skipNewlines r := by
      rw [List.append_assoc, hsuff]
    rw [hskip, hcut, hsplit, List.drop_left]
  · have hall : ∀ b ∈ r, (b == 10) = true := by
      intro b hb
      by_contra hne
      exact hr ⟨b, hb, by simpa using hne⟩
    have hskip : skipNewlines (r ++ rest) = rest := by
      rw [skipNewlines, List.dropWhile_append_of_pos hall]
      exact hrest
    rw [hskip, show skipNewlines r = [] from List.dropWhile_eq_nil_iff.2 hall]
    refine List.drop_eq_nil_of_le ?_
    simp only [List.length_append]
    omega

/-- Something is cut off a text that begins with a tag or has a label. -/
theorem opened_pos (hraw : raw ≠ []) (hb : before ≠ [])
    (h : f.labelLine = true ∨ f.start.isPrefixOf raw = true) : 0 < f.opened raw before := by
  rw [opened_eq]
  have hrawlen : 0 < raw.length := List.length_pos_iff.2 hraw
  cases hl : f.labelLine with
  | true =>
    rw [if_pos rfl]
    cases hline : afterLine (raw.drop (f.tag raw).length) with
    | none => exact List.length_pos_iff.2 hb
    | some line =>
      obtain ⟨u, hu⟩ := afterLine_suffix hline
      have hlen := congrArg List.length hu
      simp only [List.length_append, List.length_cons, List.length_drop] at hlen ⊢
      omega
  | false =>
    have hp : f.start.isPrefixOf raw = true := h.resolve_left (by simp [hl])
    have htag : 0 < (f.tag raw).length := by
      rw [tag, if_pos hp]
      exact List.length_pos_iff.2 f.start_ne
    have hskip : (skipNewlines (raw.drop (f.tag raw).length)).length ≤
        (raw.drop (f.tag raw).length).length := List.length_dropWhile_le _ _
    rw [List.length_drop] at hskip
    simp only [Bool.false_eq_true, if_false]
    omega

end ThinkFormat

namespace ThinkStream

open ThinkFormat

variable {f : ThinkFormat} (S : ThinkStream f) (keep : Bool)
  (render : ℕ → Option Text → List ChatMessage → Bool → Option Text)

/-- All pieces one after the other, which is what the history splits. -/
def text : Text := pieces S.tokens

/-- The client and the history get the same reasoning and the same content, up to line breaks at
their beginnings. -/
def Agrees : Prop :=
  skipNewlines S.collected.reasoning = skipNewlines (S.recorded keep render).1 ∧
    skipNewlines S.collected.content = skipNewlines (S.recorded keep render).2

/-- The text before the end token. -/
def beforeText : Text := pieces S.opening ++ S.insideText

/-- For a closed span: what its beginning has to look like, and with a label what follows it. -/
def ClosedFits : Prop :=
  if S.started then
    f.labelLine = true → (10 : UInt8) ∈ S.insideText ∨ ∀ b ∈ S.afterText.head?, b = 10
  else
    S.insideText = [] ∨
      if f.labelLine then S.insideText.head? = some 10 else f.start.isPrefixOf S.text = false

/-- For a span that is not closed, or no span: there is next to nothing in it. -/
def OpenFits : Prop :=
  if S.started then
    f.labelLine = true ∧ ∃ before after, strstr f.stop S.text = some (before, f.stop ++ after) ∧
      (10 : UInt8) ∉ before ∧ ∀ b ∈ after, b = 10
  else if S.thinkOpen then ∀ b ∈ S.text, b = 10
  else strstr f.stop S.text = none

/-- The streams that both readings take the same way. -/
def Fits : Prop :=
  if S.closed.isSome then
    strstr f.stop S.text = some (S.beforeText, f.stop ++ S.afterText) ∧ S.ClosedFits
  else S.OpenFits

variable {S keep render}

theorem recorded_none (h : strstr f.stop S.text = none) : S.recorded keep render = ([], S.text) := by
  rw [text] at h
  rw [recorded, splitThinking_none h]
  rfl

theorem recorded_some {before after : Text} (h : strstr f.stop S.text = some (before, f.stop ++ after)) :
    S.recorded keep render = (before.drop (f.opened S.text before), skipNewlines after) := by
  rw [text] at h
  rw [recorded, splitThinking_some h]
  rfl

theorem text_closed (hc : S.closed.isSome = true) : S.text = S.beforeText ++ (f.stop ++ S.afterText) := by
  obtain ⟨after, hafter⟩ := Option.isSome_iff_exists.1 hc
  simp [text, tokens, closing, hafter, beforeText, insideText, afterText, pieces]

theorem text_open (hc : S.closed = none) : S.text = S.beforeText := by
  simp [text, tokens, closing, hc, beforeText, insideText, pieces]

theorem opening_started (hs : S.started = true) : pieces S.opening = f.start := by
  simp [opening, hs, pieces]

theorem opening_unstarted (hs : S.started = false) : pieces S.opening = [] := by
  simp [opening, hs, pieces]

theorem tag_of_append {rest : Text} (ht : S.text = f.start ++ rest) : f.tag S.text = f.start := by
  rw [tag, if_pos]
  rw [ht]
  exact List.isPrefixOf_iff_prefix.2 (List.prefix_append _ _)

/-- What is collected as content is not longer than what follows the end token. -/
theorem content_length_le (h : S.thinkOpen = true ∨ S.started = true) :
    S.collected.content.length ≤ S.afterText.length := by
  rw [(S.collected_span h).2]
  split
  · cases hline : afterLine S.afterText with
    | none => exact Nat.zero_le _
    | some line =>
      obtain ⟨u, hu⟩ := afterLine_suffix hline
      rw [hu, Option.getD_some, List.length_append, List.length_cons]
      omega
  · exact le_rfl

/-- An end marker that is found too early leaves a part of the end token in the content. -/
theorem not_agrees_of_early (h : S.thinkOpen = true ∨ S.started = true) {before rest : Text}
    (ht : S.text = S.beforeText ++ (f.stop ++ S.afterText))
    (hfound : strstr f.stop S.text = some (before, f.stop ++ rest))
    (hlt : before.length < S.beforeText.length) : ¬ S.Agrees keep render := by
  rintro ⟨-, hcon⟩
  have hraw : S.beforeText ++ (f.stop ++ S.afterText) = before ++ (f.stop ++ rest) :=
    ht.symm.trans (strstr_spec hfound).1
  have hlen := congrArg List.length hraw
  simp only [List.length_append] at hlen
  obtain ⟨y, hy⟩ : ∃ y, rest = y ++ S.afterText := by
    have hsuff : S.afterText <:+ before ++ f.stop ++ rest :=
      ⟨S.beforeText ++ f.stop, by rw [List.append_assoc, hraw, List.append_assoc]⟩
    obtain ⟨y, hy⟩ := List.suffix_of_suffix_length_le hsuff (List.suffix_append _ rest) (by omega)
    exact ⟨y, hy.symm⟩
  have hylen : 0 < y.length := by
    rw [hy, List.length_append] at hlen
    omega
  have hends : S.beforeText ++ f.stop ++ S.afterText = before ++ f.stop ++ y ++ S.afterText := by
    rw [List.append_assoc, hraw, hy]
    simp only [List.append_assoc]
  have hend : S.beforeText ++ f.stop = before ++ f.stop ++ y := List.append_cancel_right hends
  -- the last byte of what is left over is that of the marker
  have hlast : ∃ b ∈ y, (b == 10) = false := by
    have hyne : y ≠ [] := List.length_pos_iff.1 hylen
    refine ⟨y.getLast hyne, List.getLast_mem hyne, ?_⟩
    have heq : y.getLast hyne = f.stop.getLast f.stop_ne := by
      have h' := congrArg List.getLast? hend
      rw [List.getLast?_append_of_ne_nil _ f.stop_ne, List.getLast?_append_of_ne_nil _ hyne,
        List.getLast?_eq_getLast_of_ne_nil f.stop_ne, List.getLast?_eq_getLast_of_ne_nil hyne] at h'
      exact (Option.some.inj h').symm
    simpa using fun he : y.getLast hyne = 10 =>
      f.stop_line (he ▸ heq ▸ List.getLast_mem f.stop_ne)
  rw [recorded_some hfound, skipNewlines_skipNewlines, hy] at hcon
  exact Trimming.dropWhile_ne_of_length_le hlast (content_length_le h) hcon.symm

theorem skipNewlines_afterLine_iff {x : Text} :
    skipNewlines ((afterLine x).getD []) = skipNewlines x ↔ ∀ b ∈ x.head?, b = 10 := by
  cases x with
  | nil => simp [afterLine]
  | cons b x =>
    rw [afterLine_cons, List.head?_cons]
    by_cases hb : b = 10
    · subst hb
      simp [skipNewlines_line]
    · rw [if_neg hb]
      refine ⟨fun he => ?_, fun h => absurd (h b rfl) hb⟩
      have hlen : ((afterLine x).getD []).length ≤ x.length := by
        cases hline : afterLine x with
        | none => exact Nat.zero_le _
        | some line =>
          obtain ⟨u, hu⟩ := afterLine_suffix hline
          rw [hu, Option.getD_some, List.length_append, List.length_cons]
          omega
      exact absurd he.symm
        (Trimming.dropWhile_ne_of_length_le (x := [b]) ⟨b, by simp, by simpa using hb⟩ hlen)

/-- A span that the start token opens. -/
theorem agrees_closed_started (hs : S.started = true) (hc : S.closed.isSome = true)
    (hfound : strstr f.stop S.text = some (S.beforeText, f.stop ++ S.afterText)) :
    S.Agrees keep render ↔ S.ClosedFits := by
  have ht : S.text = f.start ++ (S.insideText ++ (f.stop ++ S.afterText)) := by
    rw [text_closed hc, beforeText, opening_started hs, List.append_assoc]
  have htag : f.tag S.text = f.start := tag_of_append ht
  obtain ⟨hreas, hcon⟩ := S.collected_span (.inr hs)
  have hbefore : S.beforeText = f.start ++ S.insideText := by rw [beforeText, opening_started hs]
  rw [Agrees, recorded_some hfound, hreas, hcon, ClosedFits, if_pos hs, skipNewlines_skipNewlines, hs,
    hbefore]
  cases hl : f.labelLine with
  | false =>
    rw [drop_opened_plain hl htag ht skipNewlines_stop]
    simp
  | true =>
    rw [drop_opened_label hl htag ht]
    cases hline : afterLine S.insideText with
    | none =>
      have hno : (10 : UInt8) ∉ S.insideText := afterLine_eq_none.1 hline
      simpa [hno] using skipNewlines_afterLine_iff
    | some line =>
      have hyes : (10 : UInt8) ∈ S.insideText := by
        by_contra hno
        rw [afterLine_eq_none.2 hno] at hline
        cases hline
      simp [hyes]

/-- A span that is open already. -/
theorem agrees_closed_unstarted (ho : S.thinkOpen = true) (hs : S.started = false)
    (hc : S.closed.isSome = true)
    (hfound : strstr f.stop S.text = some (S.beforeText, f.stop ++ S.afterText)) :
    S.Agrees keep render ↔ S.ClosedFits := by
  have hbefore : S.beforeText = S.insideText := by rw [beforeText, opening_unstarted hs, List.nil_append]
  have ht : S.text = [] ++ (S.insideText ++ (f.stop ++ S.afterText)) := by
    rw [text_closed hc, hbefore, List.nil_append]
  obtain ⟨hreas, hcon⟩ := S.collected_span (.inl ho)
  rw [Agrees, recorded_some hfound, hreas, hcon, ClosedFits, if_neg (by simp [hs]),
    skipNewlines_skipNewlines, hbefore]
  simp only [hs, Bool.false_and, Bool.false_eq_true, if_false, and_true]
  have hraw : S.text ≠ [] := by
    rw [ht]
    simp [f.stop_ne]
  cases hi : S.insideText with
  | nil => simp
  | cons b inside =>
    have hne : S.insideText ≠ [] := by simp [hi]
    rw [← hi]
    by_cases hp : f.start.isPrefixOf S.text = true
    · -- the text begins with the start marker although no start token is there
      have hb : b ≠ 10 := by
        obtain ⟨rest, hrest⟩ := List.isPrefixOf_iff_prefix.1 hp
        obtain ⟨d, t, hd⟩ := List.exists_cons_of_ne_nil f.start_ne
        rw [ht, hd, hi] at hrest
        have hbd : d = b := (List.cons.inj hrest).1
        exact fun he => f.start_line (by rw [hd, hbd, he]; exact List.mem_cons_self)
      have hpos := opened_pos (f := f) hraw hne (.inr hp)
      have hdiff : ¬ skipNewlines S.insideText =
          skipNewlines (S.insideText.drop (f.opened S.text S.insideText)) := by
        rw [hi]
        rw [hi] at hpos
        exact Trimming.dropWhile_cons_ne_drop (by simpa using hb) hpos
      refine iff_of_false hdiff ?_
      rintro (h | h)
      · exact hne h
      · split at h
        · rw [hi] at h
          exact hb (Option.some.inj h)
        · simp [hp] at h
    · have htag : f.tag S.text = [] := by rw [tag, if_neg hp]
      have hnil : S.insideText = [] ++ S.insideText := rfl
      cases hl : f.labelLine with
      | false =>
        have hdrop := drop_opened_plain hl htag ht skipNewlines_stop
        rw [List.nil_append] at hdrop
        rw [hdrop]
        simp [Bool.eq_false_iff.2 hp]
      | true =>
        have hdrop := drop_opened_label hl htag ht
        rw [List.nil_append] at hdrop
        rw [hdrop, eq_comm, skipNewlines_afterLine_iff]
        simp [hi]

/-- The part of a text that a marker behind the start marker leaves over. -/
theorem exists_byte_of_overlap {before after inside : Text}
    (hapart : f.start.length < before.length + f.stop.length)
    (h : f.start ++ inside = before ++ (f.stop ++ after)) :
    ∃ y, inside = before.drop f.start.length ++ y ∧ ∃ b ∈ y, (b == 10) = false := by
  by_cases hle : f.start.length ≤ before.length
  · obtain ⟨a, ha⟩ : f.start <+: before :=
      List.prefix_of_prefix_length_le (h ▸ List.prefix_append _ _) (List.prefix_append _ _) hle
    subst ha
    refine ⟨f.stop ++ after, ?_, ?_⟩
    · rw [List.append_assoc] at h
      rw [List.drop_left]
      exact List.append_cancel_left h
    · obtain ⟨b, hb, hp⟩ := f.stop_byte
      exact ⟨b, List.mem_append_left _ hb, hp⟩
  · -- the end marker begins inside the start marker and ends behind it
    have hends : before ++ f.stop <+: f.start ++ inside := by
      rw [h, ← List.append_assoc]
      exact List.prefix_append _ _
    have hpre : f.start <+: before ++ f.stop := by
      refine List.prefix_of_prefix_length_le (List.prefix_append _ _) hends ?_
      rw [List.length_append]
      omega
    obtain ⟨z, hz⟩ := hpre
    have hinside : inside = z ++ after := by
      rw [← List.append_assoc, ← hz, List.append_assoc] at h
      exact List.append_cancel_left h
    have hzne : z ≠ [] := by
      intro he
      have hlen := congrArg List.length hz
      rw [he, List.append_nil, List.length_append] at hlen
      omega
    refine ⟨inside, by rw [List.drop_eq_nil_of_le (by omega), List.nil_append], z.getLast hzne, ?_, ?_⟩
    · rw [hinside]
      exact List.mem_append_left _ (List.getLast_mem hzne)
    · have heq : z.getLast hzne = f.stop.getLast f.stop_ne := by
        have h' := congrArg List.getLast? hz
        rw [List.getLast?_append_of_ne_nil _ f.stop_ne, List.getLast?_append_of_ne_nil _ hzne,
          List.getLast?_eq_getLast_of_ne_nil f.stop_ne, List.getLast?_eq_getLast_of_ne_nil hzne] at h'
        exact Option.some.inj h'
      simpa using fun he : z.getLast hzne = 10 =>
        f.stop_line (he ▸ heq ▸ List.getLast_mem f.stop_ne)

/-- The end marker is not found inside the start marker. -/
theorem stop_behind_start {before after inside : Text}
    (h : f.start ++ inside = before ++ (f.stop ++ after)) :
    f.start.length < before.length + f.stop.length := by
  by_contra hle
  have hends : before ++ f.stop <+: f.start ++ inside := by
    rw [h, ← List.append_assoc]
    exact List.prefix_append _ _
  have hpre : before ++ f.stop <+: f.start := by
    refine List.prefix_of_prefix_length_le hends (List.prefix_append _ _) ?_
    rw [List.length_append]
    omega
  obtain ⟨y, hy⟩ := hpre
  obtain ⟨a, r, hfound, -⟩ := strstr_of_append f.stop before y
  rw [← List.append_assoc, hy, f.stop_apart] at hfound
  cases hfound

theorem skipNewlines_nil_iff {x : Text} : ([] : Text) = skipNewlines x ↔ ∀ b ∈ x, b = 10 := by
  rw [eq_comm, skipNewlines_eq_nil]

theorem afterText_open (hc : S.closed = none) : S.afterText = [] := by
  rw [afterText, hc]
  rfl

/-- A line break behind a text without one. -/
theorem suffix_of_line {x y u l : Text} (hx : (10 : UInt8) ∉ x) (h : x ++ y = u ++ 10 :: l) :
    l <:+ y := by
  obtain ⟨a, rfl, rfl⟩ | ⟨a, rfl, ha⟩ := List.append_eq_append_iff.1 h
  · exact ⟨a ++ [10], by simp⟩
  · cases a with
    | nil => exact ⟨[10], by simpa using ha⟩
    | cons b a =>
      have hb : (10 : UInt8) = b := (List.cons.inj ha).1
      exact absurd (by simp [hb]) hx

/-- With a label, pieces that spell the end marker: the rest must be line breaks only, without one in
front of it. -/
theorem agrees_label_found {before after : Text} (hl : f.labelLine = true)
    (htag : f.tag S.text = f.start) (ht : S.text = f.start ++ S.insideText)
    (hraw : f.start ++ S.insideText = before ++ (f.stop ++ after)) :
    (skipNewlines ((afterLine S.insideText).getD []) =
          skipNewlines (before.drop (f.opened S.text before)) ∧ ∀ b ∈ after, b = 10) ↔
      true = true ∧ ∃ before' after', some (before, f.stop ++ after) = some (before', f.stop ++ after') ∧
        (10 : UInt8) ∉ before' ∧ ∀ b ∈ after', b = 10 := by
  have hright : (true = true ∧ ∃ before' after',
      some (before, f.stop ++ after) = some (before', f.stop ++ after') ∧
        (10 : UInt8) ∉ before' ∧ ∀ b ∈ after', b = 10) ↔
      (10 : UInt8) ∉ before ∧ ∀ b ∈ after, b = 10 := by
    refine ⟨?_, fun h => ⟨rfl, before, after, rfl, h⟩⟩
    rintro ⟨-, before', after', he, h⟩
    obtain ⟨rfl, hrest⟩ := Prod.mk.inj (Option.some.inj he)
    rwa [List.append_cancel_left hrest]
  rw [hright]
  refine and_congr_left fun hafter => ?_
  by_cases hin : (10 : UInt8) ∈ before
  · refine iff_of_false ?_ (not_not_intro hin)
    obtain ⟨a, ha⟩ : f.start <+: before := by
      refine List.prefix_of_prefix_length_le (hraw ▸ List.prefix_append _ _) (List.prefix_append _ _) ?_
      by_contra hlt
      have hbefore : before <+: f.start ++ S.insideText := hraw ▸ List.prefix_append before _
      have hpre : before <+: f.start :=
        List.prefix_of_prefix_length_le hbefore (List.prefix_append _ _) (by omega)
      exact f.start_line (hpre.subset hin)
    subst ha
    have hinside : S.insideText = a ++ (f.stop ++ after) := by
      rw [List.append_assoc] at hraw
      exact List.append_cancel_left hraw
    obtain ⟨l, hl'⟩ : ∃ l, afterLine a = some l := by
      refine Option.ne_none_iff_exists'.1 fun hnone => ?_
      exact (List.mem_append.1 hin).elim f.start_line (afterLine_eq_none.1 hnone)
    obtain ⟨b, hb, hp⟩ := f.stop_byte
    rw [drop_opened_label hl htag (ht.trans (by rw [hinside])), hinside, afterLine_append hl', hl']
    exact Trimming.dropWhile_append_ne_drop (k := 0) ⟨b, List.mem_append_left _ hb, hp⟩
  · refine iff_of_true ?_ hin
    have hno : (10 : UInt8) ∉ before ++ f.stop := fun h =>
      (List.mem_append.1 h).elim hin f.stop_line
    have hcut : before.drop (f.opened S.text before) = [] := by
      refine List.drop_eq_nil_of_le ?_
      rw [opened_eq, if_pos hl, htag, ht, List.drop_left]
      cases hline : afterLine S.insideText with
      | none => exact le_rfl
      | some line =>
        obtain ⟨u, hu⟩ := afterLine_suffix hline
        have hsuff : line <:+ after := suffix_of_line (u := f.start ++ u) hno (by
          rw [List.append_assoc, ← hraw, hu, List.append_assoc])
        have hle := hsuff.length_le
        simp only [hraw, List.length_append]
        omega
    rw [hcut]
    cases hline : afterLine S.insideText with
    | none => rfl
    | some line =>
      obtain ⟨u, hu⟩ := afterLine_suffix hline
      have hsuff : line <:+ after := suffix_of_line (u := f.start ++ u) hno (by
        rw [List.append_assoc, ← hraw, hu, List.append_assoc])
      exact skipNewlines_eq_nil.2 fun b hb => hafter b (hsuff.subset hb)

/-- A span that the start token opens and nothing closes. -/
theorem agrees_open_started (hs : S.started = true) (hc : S.closed = none) :
    S.Agrees keep render ↔ S.OpenFits := by
  have ht : S.text = f.start ++ S.insideText := by rw [text_open hc, beforeText, opening_started hs]
  obtain ⟨hreas, hcon⟩ := S.collected_span (.inr hs)
  have hcontent : S.collected.content = [] := by
    rw [hcon, afterText_open hc]
    split <;> rfl
  rw [OpenFits, if_pos hs, Agrees, hcontent, hreas, hs, Bool.true_and]
  cases hfound : strstr f.stop S.text with
  | none =>
    refine iff_of_false ?_ ?_
    · rintro ⟨-, he⟩
      rw [recorded_none hfound, ht] at he
      exact Trimming.dropWhile_ne_of_length_le (z := []) f.start_byte (Nat.zero_le _) he.symm
    · rintro ⟨-, before, after, he, -⟩
      cases he
  | some p =>
    obtain ⟨before, rest⟩ := p
    obtain ⟨hraw, after, rfl⟩ := strstr_spec hfound
    rw [ht] at hraw
    have hbehind : f.start.length < before.length + f.stop.length := stop_behind_start hraw
    obtain ⟨y, hy, hbyte⟩ := exists_byte_of_overlap hbehind hraw
    have htag : f.tag S.text = f.start := tag_of_append ht
    rw [recorded_some hfound, skipNewlines_skipNewlines, show skipNewlines ([] : Text) = [] from rfl,
      skipNewlines_nil_iff]
    cases hl : f.labelLine with
    | false =>
      refine iff_of_false ?_ (by simp)
      rintro ⟨he, -⟩
      obtain ⟨k, hk⟩ : ∃ k, f.opened S.text before = f.start.length + k := by
        refine Nat.exists_eq_add_of_le ?_
        have hskip : (skipNewlines (S.text.drop f.start.length)).length ≤
            (S.text.drop f.start.length).length := List.length_dropWhile_le _ _
        have hlen := congrArg List.length ht
        rw [List.length_append] at hlen
        rw [List.length_drop] at hskip
        rw [opened_eq, hl, htag]
        simp only [Bool.false_eq_true, if_false]
        omega
      rw [if_neg (by simp), hk, ← List.drop_drop, hy] at he
      exact Trimming.dropWhile_append_ne_drop hbyte k he
    | true =>
      rw [if_pos rfl]
      exact agrees_label_found hl htag ht hraw

/-- A span that the prompt opens and nothing closes. -/
theorem agrees_open_unstarted (ho : S.thinkOpen = true) (hs : S.started = false) (hc : S.closed = none) :
    S.Agrees keep render ↔ S.OpenFits := by
  have ht : S.text = S.insideText := by
    rw [text_open hc, beforeText, opening_unstarted hs, List.nil_append]
  obtain ⟨hreas, hcon⟩ := S.collected_span (.inl ho)
  rw [OpenFits, if_neg (by simp [hs]), if_pos ho, Agrees, hcon, hreas, hs, afterText_open hc, ht]
  simp only [Bool.false_and, Bool.false_eq_true, if_false]
  cases hfound : strstr f.stop S.text with
  | none =>
    rw [recorded_none hfound, ht]
    refine ⟨fun h => skipNewlines_nil_iff.1 h.2, fun h => ?_⟩
    exact ⟨skipNewlines_eq_nil.2 h, skipNewlines_nil_iff.2 h⟩
  | some p =>
    obtain ⟨before, rest⟩ := p
    obtain ⟨hraw, after, rfl⟩ := strstr_spec hfound
    obtain ⟨b, hb, hp⟩ := f.stop_byte
    rw [recorded_some hfound, ← ht, hraw]
    refine iff_of_false ?_ fun h => ?_
    · rintro ⟨he, -⟩
      exact Trimming.dropWhile_append_ne_drop ⟨b, List.mem_append_left _ hb, hp⟩ _ he
    · simp [h b (by simp [hb])] at hp

/-- No span. -/
theorem agrees_plain (ho : S.thinkOpen = false) (hs : S.started = false) :
    S.Agrees keep render ↔ S.OpenFits := by
  have hc : S.closed = none := S.spanless ho hs
  have ht : S.text = S.insideText := by
    rw [text_open hc, beforeText, opening_unstarted hs, List.nil_append]
  obtain ⟨hreas, hcon⟩ := S.collected_plain ho hs
  rw [OpenFits, if_neg (by simp [hs]), if_neg (by simp [ho]), Agrees, hcon, hreas, ← ht]
  cases hfound : strstr f.stop S.text with
  | none => simp [recorded_none hfound]
  | some p =>
    obtain ⟨before, rest⟩ := p
    obtain ⟨hraw, after, rfl⟩ := strstr_spec hfound
    obtain ⟨b, hb, hp⟩ := f.stop_byte
    rw [recorded_some hfound, skipNewlines_skipNewlines]
    refine iff_of_false ?_ (by simp)
    rintro ⟨-, he⟩
    rw [hraw, ← List.append_assoc] at he
    exact Trimming.dropWhile_ne_of_length_le ⟨b, List.mem_append_right _ hb, hp⟩ le_rfl he

/-- For every stream, the client and the history get the same message exactly if the stream fits. -/
theorem agrees_iff_fits (S : ThinkStream f) (keep : Bool)
    (render : ℕ → Option Text → List ChatMessage → Bool → Option Text) :
    S.Agrees keep render ↔ S.Fits := by
  by_cases hspan : S.thinkOpen = true ∨ S.started = true
  · cases hc : S.closed with
    | none =>
      rw [Fits, hc, Option.isSome_none, if_neg (by simp)]
      cases hs : S.started with
      | true => exact agrees_open_started hs hc
      | false => exact agrees_open_unstarted (hspan.resolve_right (by simp [hs])) hs hc
    | some after =>
      have hsome : S.closed.isSome = true := by rw [hc]; rfl
      have ht := text_closed hsome
      obtain ⟨before, rest, hfound, hle⟩ := strstr_of_append f.stop S.beforeText S.afterText
      rw [← ht] at hfound
      obtain ⟨hraw, rest, rfl⟩ := strstr_spec hfound
      rw [Fits, if_pos hsome]
      by_cases hlen : before.length = S.beforeText.length
      · have heq : before ++ (f.stop ++ rest) = S.beforeText ++ (f.stop ++ S.afterText) :=
          hraw.symm.trans ht
        obtain ⟨rfl, hrest⟩ := List.append_inj heq hlen
        obtain rfl := List.append_cancel_left hrest
        rw [and_iff_right hfound]
        cases hs : S.started with
        | true => exact agrees_closed_started hs hsome hfound
        | false =>
          exact agrees_closed_unstarted (hspan.resolve_right (by simp [hs])) hs hsome hfound
      · refine iff_of_false (not_agrees_of_early hspan ht hfound (by omega)) ?_
        rintro ⟨he, -⟩
        rw [hfound] at he
        exact hlen (congrArg List.length (Prod.mk.inj (Option.some.inj he)).1)
  · rw [not_or, Bool.not_eq_true, Bool.not_eq_true] at hspan
    have hc : S.closed = none := S.spanless hspan.1 hspan.2
    rw [Fits, hc, Option.isSome_none, if_neg (by simp)]
    exact agrees_plain hspan.1 hspan.2

/-- A label span without a line break: the start token, the end token and one piece of content. -/
def emptySpan : ThinkStream channelThinking where
  startId := 100
  endId := 101
  thinkOpen := false
  started := true
  inside := []
  closed := some [⟨7, ascii "Hi"⟩]
  ids_ne := by decide
  spanless := by decide
  ordinary := by decide +kernel

/-- The client gets nothing, the history keeps the content. -/
theorem emptySpan_swallowed :
    emptySpan.collected.content = [] ∧
      (emptySpan.recorded false fun _ _ _ _ => none).2 = ascii "Hi" ∧
      ¬ emptySpan.Agrees false fun _ _ _ _ => none := by
  have hclient : emptySpan.collected.content = [] := by decide +kernel
  have hhistory : (emptySpan.recorded false fun _ _ _ _ => none).2 = ascii "Hi" := by decide +kernel
  refine ⟨hclient, hhistory, fun h => ?_⟩
  have he := h.2
  rw [hclient, hhistory] at he
  exact absurd he (by decide +kernel)

end ThinkStream

end Kappai
