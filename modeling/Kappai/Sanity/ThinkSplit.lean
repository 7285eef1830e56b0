import Kappai.Lib.Trimming
import Kappai.Spec.ThinkFilter

/-! The two readings of a generation: what the token filter collects of each part of a stream, and
what the search for the markers makes of the whole text. -/

namespace Kappai

theorem strstr_spec {n t a r : Text} (h : strstr n t = some (a, r)) : t = a ++ r ∧ n <+: r := by
  induction t generalizing a r with
  | nil =>
    simp only [strstr] at h
    split_ifs at h with hn
    obtain ⟨rfl, rfl⟩ := Prod.mk.inj (Option.some.inj h)
    exact ⟨rfl, hn ▸ List.prefix_rfl⟩
  | cons b t ih =>
    simp only [strstr] at h
    split_ifs at h with hn
    · obtain ⟨rfl, rfl⟩ := Prod.mk.inj (Option.some.inj h)
      exact ⟨rfl, List.isPrefixOf_iff_prefix.1 hn⟩
    · obtain ⟨⟨a', r'⟩, hr, he⟩ := Option.map_eq_some_iff.1 h
      obtain ⟨rfl, rfl⟩ := Prod.mk.inj he
      obtain ⟨ht, hp⟩ := ih hr
      exact ⟨by rw [ht, List.cons_append], hp⟩

/-- What is there is found, there or earlier. -/
theorem strstr_of_append (n x y : Text) :
    ∃ a r, strstr n (x ++ (n ++ y)) = some (a, r) ∧ a.length ≤ x.length := by
  induction x with
  | nil =>
    cases hn : n ++ y with
    | nil =>
      obtain ⟨rfl, rfl⟩ := List.append_eq_nil_iff.1 hn
      exact ⟨[], [], rfl, le_rfl⟩
    | cons b t =>
      refine ⟨[], b :: t, ?_, le_rfl⟩
      rw [List.nil_append, strstr, if_pos]
      exact List.isPrefixOf_iff_prefix.2 (hn ▸ List.prefix_append n y)
  | cons b x ih =>
    obtain ⟨a, r, ha, hl⟩ := ih
    rw [List.cons_append, strstr]
    split_ifs with hp
    · exact ⟨[], _, rfl, Nat.zero_le _⟩
    · exact ⟨b :: a, r, by rw [ha]; rfl, Nat.succ_le_succ hl⟩

section Lines

variable {x y : Text}

theorem afterLine_eq_none : afterLine x = none ↔ (10 : UInt8) ∉ x := by
  unfold afterLine
  split
  · next h =>
    have hall := List.dropWhile_eq_nil_iff.1 h
    exact ⟨fun _ hm => by simpa using hall 10 hm, fun _ => rfl⟩
  · next b rest h =>
    refine ⟨fun he => (by cases he), fun hm => ?_⟩
    have hnil : x.dropWhile (· != 10) = [] :=
      List.dropWhile_eq_nil_iff.2 fun b hb => by simpa using fun he : b = 10 => hm (he ▸ hb)
    rw [hnil] at h
    cases h

theorem afterLine_append {l : Text} (h : afterLine x = some l) : afterLine (x ++ y) = some (l ++ y) := by
  unfold afterLine at h ⊢
  split at h
  · cases h
  · next b rest hd =>
    cases Option.some.inj h
    rw [List.dropWhile_append, hd]
    rfl

theorem afterLine_append_of_none (h : afterLine x = none) : afterLine (x ++ y) = afterLine y := by
  have hx : ∀ b ∈ x, (b != 10) = true := fun b hb => by
    simpa using fun he : b = 10 => afterLine_eq_none.1 h (he ▸ hb)
  unfold afterLine
  rw [List.dropWhile_append_of_pos hx]

theorem afterLine_cons {b : UInt8} :
    afterLine (b :: x) = if b = 10 then some x else afterLine x := by
  unfold afterLine
  rw [List.dropWhile_cons]
  by_cases hb : b = 10 <;> simp [hb]

theorem afterLine_suffix {l : Text} (h : afterLine x = some l) : ∃ u, x = u ++ 10 :: l := by
  induction x with
  | nil => cases h
  | cons b x ih =>
    rw [afterLine_cons] at h
    split_ifs at h with hb
    · exact ⟨[], by rw [hb, Option.some.inj h, List.nil_append]⟩
    · obtain ⟨u, rfl⟩ := ih h
      exact ⟨b :: u, rfl⟩

theorem skipNewlines_eq_nil : skipNewlines x = [] ↔ ∀ b ∈ x, b = 10 := by
  unfold skipNewlines
  rw [List.dropWhile_eq_nil_iff]
  simp

@[simp] theorem skipNewlines_skipNewlines : skipNewlines (skipNewlines x) = skipNewlines x :=
  List.dropWhile_idempotent _ _

theorem skipNewlines_line : skipNewlines (10 :: x) = skipNewlines x := by
  unfold skipNewlines
  rw [List.dropWhile_cons, if_pos (by decide)]

/-- A text without line breaks, and not empty, has a byte that counts. -/
theorem exists_byte (hne : x ≠ []) (h : (10 : UInt8) ∉ x) : ∃ b ∈ x, (b == 10) = false := by
  cases x with
  | nil => exact absurd rfl hne
  | cons b x =>
    exact ⟨b, List.mem_cons_self, by simpa using fun he : b = 10 => h (he ▸ List.mem_cons_self)⟩

end Lines

/-! The token filter. -/

section Filter

variable {f : ThinkFormat} {startId endId : ℤ} {thinkOpen : Bool} {toks : List GenToken}

/-- One token after the other. -/
def feedAll (f : ThinkFormat) (startId endId : ℤ) (thinkOpen : Bool) (g : GenTexts) (toks : List GenToken) :
    GenTexts :=
  toks.foldl (fun g t => genOnToken startId endId thinkOpen f.labelLine g t.id t.piece) g

/-- Text for the part that the filter is in. -/
def GenTexts.add (g : GenTexts) (t : Text) : GenTexts :=
  if g.think.inThinking then { g with reasoning := g.reasoning ++ t }
  else { g with content := g.content ++ t }

theorem GenTexts.add_nil (g : GenTexts) : g.add [] = g := by
  unfold GenTexts.add
  split_ifs <;> simp

theorem GenTexts.add_add (g : GenTexts) (t u : Text) : (g.add t).add u = g.add (t ++ u) := by
  unfold GenTexts.add
  split_ifs <;> simp_all

/-- Tokens that are no markers. -/
def Plain (startId endId : ℤ) (toks : List GenToken) : Prop :=
  ∀ t ∈ toks, t.id ≠ startId ∧ t.id ≠ endId

theorem feedAll_append (g : GenTexts) (toks toks' : List GenToken) :
    feedAll f startId endId thinkOpen g (toks ++ toks') =
      feedAll f startId endId thinkOpen (feedAll f startId endId thinkOpen g toks) toks' :=
  List.foldl_append

theorem genOnToken_plain {g : GenTexts} (hg : g.think.firstToken = false) (hs : g.think.skipLabel = false) {t : GenToken}
    (h : t.id ≠ startId ∧ t.id ≠ endId) :
    genOnToken startId endId thinkOpen f.labelLine g t.id t.piece = g.add t.piece := by
  obtain ⟨⟨inThinking, skipLabel, firstToken⟩, reasoning, content⟩ := g
  simp only at hg hs
  subst hg hs
  cases inThinking <;> simp [genOnToken, thinkFilterFeed, GenTexts.add, h.1, h.2]

theorem feedAll_plain {g : GenTexts} (hg : g.think.firstToken = false) (hs : g.think.skipLabel = false)
    (h : Plain startId endId toks) : feedAll f startId endId thinkOpen g toks = g.add (pieces toks) := by
  induction toks generalizing g with
  | nil => exact g.add_nil.symm
  | cons t toks ih =>
    have hthink : (g.add t.piece).think = g.think := by
      unfold GenTexts.add
      split_ifs <;> rfl
    rw [feedAll, List.foldl_cons, genOnToken_plain hg hs (h t List.mem_cons_self)]
    refine (ih (by rw [hthink]; exact hg) (by rw [hthink]; exact hs)
      fun u hu => h u (List.mem_cons_of_mem t hu)).trans ?_
    rw [GenTexts.add_add]
    rfl

/-- The filter while it looks for the end of the label: swallowed up to the first line break. -/
theorem feedAll_label {g : GenTexts} (hg : g.think.firstToken = false) (hs : g.think.skipLabel = true)
    (h : Plain startId endId toks) :
    feedAll f startId endId thinkOpen g toks =
      match afterLine (pieces toks) with
      | none => g
      | some rest => { g with think := { g.think with skipLabel := false } }.add rest := by
  induction toks with
  | nil => rfl
  | cons t toks ih =>
    obtain ⟨⟨inThinking, skipLabel, firstToken⟩, reasoning, content⟩ := g
    simp only at hg hs
    subst hg hs
    have ht := h t List.mem_cons_self
    have htail : Plain startId endId toks := fun u hu => h u (List.mem_cons_of_mem t hu)
    rw [feedAll, List.foldl_cons]
    cases hline : afterLine t.piece with
    | none =>
      have hstep : genOnToken startId endId thinkOpen f.labelLine
          ⟨⟨inThinking, true, false⟩, reasoning, content⟩ t.id t.piece =
            ⟨⟨inThinking, true, false⟩, reasoning, content⟩ := by
        cases inThinking <;> simp [genOnToken, thinkFilterFeed, ht.1, ht.2, hline]
      rw [hstep, show pieces (t :: toks) = t.piece ++ pieces toks from rfl,
        afterLine_append_of_none hline]
      exact ih htail
    | some rest =>
      have hstep : genOnToken startId endId thinkOpen f.labelLine
          ⟨⟨inThinking, true, false⟩, reasoning, content⟩ t.id t.piece =
            (⟨⟨inThinking, false, false⟩, reasoning, content⟩ : GenTexts).add rest := by
        cases inThinking <;>
          simp [genOnToken, thinkFilterFeed, ht.1, ht.2, hline, GenTexts.add]
      have hthink : ((⟨⟨inThinking, false, false⟩, reasoning, content⟩ : GenTexts).add rest).think =
          ⟨inThinking, false, false⟩ := by
        unfold GenTexts.add
        split_ifs <;> rfl
      rw [hstep, show pieces (t :: toks) = t.piece ++ pieces toks from rfl, afterLine_append hline]
      refine (feedAll_plain (by rw [hthink]) (by rw [hthink]) htail).trans ?_
      rw [GenTexts.add_add]

/-- The filter as it is for every token that follows: the prompt's open span counts at the first. -/
def GenTexts.settle (thinkOpen : Bool) (g : GenTexts) : GenTexts :=
  { g with think :=
      ⟨g.think.inThinking || (g.think.firstToken && thinkOpen), g.think.skipLabel, false⟩ }

theorem genOnToken_settle (labelLine : Bool) (g : GenTexts) (id : ℤ) (piece : Text) :
    genOnToken startId endId thinkOpen labelLine (g.settle thinkOpen) id piece =
      genOnToken startId endId thinkOpen labelLine g id piece := by
  simp [genOnToken, thinkFilterFeed, GenTexts.settle]

/-- What is collected does not depend on when the first token is noticed. -/
theorem feedAll_settle (g : GenTexts) :
    (feedAll f startId endId thinkOpen g toks).reasoning =
        (feedAll f startId endId thinkOpen (g.settle thinkOpen) toks).reasoning ∧
      (feedAll f startId endId thinkOpen g toks).content =
        (feedAll f startId endId thinkOpen (g.settle thinkOpen) toks).content := by
  cases toks with
  | nil => exact ⟨rfl, rfl⟩
  | cons t toks => simp [feedAll, genOnToken_settle]

end Filter

namespace ThinkStream

variable {f : ThinkFormat} (S : ThinkStream f)

/-- The text of the span, or of everything if there is none. -/
def insideText : Text := pieces S.inside

/-- The text after the end token. -/
def afterText : Text := pieces (S.closed.getD [])

theorem plain_inside : Plain S.startId S.endId S.inside := fun t ht =>
  have h := S.ordinary t (List.mem_append_left _ ht)
  ⟨h.1, h.2.1⟩

theorem plain_after : Plain S.startId S.endId (S.closed.getD []) := fun t ht =>
  have h := S.ordinary t (List.mem_append_right _ ht)
  ⟨h.1, h.2.1⟩

/-- The end token and what follows it, from a filter inside the span. -/
theorem feedAll_closing {skip : Bool} {r : Text} :
    let g := feedAll f S.startId S.endId S.thinkOpen ⟨⟨true, skip, false⟩, r, []⟩ S.closing
    g.reasoning = r ∧
      g.content = if skip then (afterLine S.afterText).getD [] else S.afterText := by
  unfold closing afterText
  cases hc : S.closed with
  | none => cases skip <;> exact ⟨rfl, rfl⟩
  | some after =>
    have hplain : Plain S.startId S.endId after := by
      have h := S.plain_after
      rwa [hc] at h
    have hend : feedAll f S.startId S.endId S.thinkOpen ⟨⟨true, skip, false⟩, r, []⟩
        (⟨S.endId, f.stop⟩ :: after) =
          feedAll f S.startId S.endId S.thinkOpen ⟨⟨false, skip, false⟩, r, []⟩ after := by
      simp [feedAll, genOnToken, thinkFilterFeed, S.ids_ne.symm]
    simp only [hend, Option.getD_some]
    cases skip with
    | false =>
      rw [feedAll_plain (g := ⟨⟨false, false, false⟩, r, []⟩) rfl rfl hplain]
      exact ⟨rfl, rfl⟩
    | true =>
      rw [feedAll_label (g := ⟨⟨false, true, false⟩, r, []⟩) rfl rfl hplain]
      cases afterLine (pieces after) <;> exact ⟨rfl, rfl⟩

/-- The collected texts are those of a filter that knows from the start whether the span is open. -/
theorem collected_settle :
    S.collected.reasoning =
        (feedAll f S.startId S.endId S.thinkOpen (GenTexts.start.settle S.thinkOpen)
          S.tokens).reasoning ∧
      S.collected.content =
        (feedAll f S.startId S.endId S.thinkOpen (GenTexts.start.settle S.thinkOpen)
          S.tokens).content :=
  feedAll_settle GenTexts.start

/-- What is collected of a stream with a span. A label that does not end inside the span is looked
for behind it. -/
theorem collected_span (h : S.thinkOpen = true ∨ S.started = true) :
    S.collected.reasoning =
        (if S.started && f.labelLine then (afterLine S.insideText).getD [] else S.insideText) ∧
      S.collected.content =
        if S.started && f.labelLine && (afterLine S.insideText).isNone then
          (afterLine S.afterText).getD []
        else S.afterText := by
  have hopen : feedAll f S.startId S.endId S.thinkOpen (GenTexts.start.settle S.thinkOpen) S.opening =
      ⟨⟨true, S.started && f.labelLine, false⟩, [], []⟩ := by
    unfold opening
    cases hs : S.started with
    | true => simp [feedAll, genOnToken, thinkFilterFeed, GenTexts.settle, GenTexts.start]
    | false => simp [feedAll, GenTexts.settle, GenTexts.start, h.resolve_right (by simp [hs])]
  have hrun : feedAll f S.startId S.endId S.thinkOpen (GenTexts.start.settle S.thinkOpen) S.tokens =
      feedAll f S.startId S.endId S.thinkOpen
        (feedAll f S.startId S.endId S.thinkOpen ⟨⟨true, S.started && f.labelLine, false⟩, [], []⟩
          S.inside) S.closing := by
    rw [tokens, feedAll_append, feedAll_append, hopen]
  obtain ⟨hr, hcon⟩ := S.collected_settle
  rw [hr, hcon, hrun]
  cases hl : S.started && f.labelLine with
  | false =>
    rw [feedAll_plain (g := ⟨⟨true, false, false⟩, [], []⟩) rfl rfl S.plain_inside]
    exact S.feedAll_closing
  | true =>
    rw [feedAll_label (g := ⟨⟨true, true, false⟩, [], []⟩) rfl rfl S.plain_inside, insideText]
    cases afterLine (pieces S.inside) with
    | none => exact S.feedAll_closing
    | some rest => exact S.feedAll_closing

/-- Without a span everything is content. -/
theorem collected_plain (ho : S.thinkOpen = false) (hs : S.started = false) :
    S.collected.reasoning = [] ∧ S.collected.content = S.insideText := by
  have htok : S.tokens = S.inside := by
    simp [tokens, opening, closing, hs, S.spanless ho hs]
  obtain ⟨hr, hcon⟩ := S.collected_settle
  rw [hr, hcon, htok, ho,
    feedAll_plain (g := GenTexts.start.settle false) rfl rfl S.plain_inside]
  exact ⟨rfl, rfl⟩

end ThinkStream

end Kappai
