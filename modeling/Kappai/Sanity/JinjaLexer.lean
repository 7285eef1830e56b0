import Mathlib.Order.Basic
import Kappai.Spec.JinjaGrammar

/-! What the lexer does with its source: it is not changed, the tokens only grow, and on a source that
fits 32-bit offsets every turn moves on. -/

namespace Kappai.Jinja

namespace Lexer

/-- The tokens have grown, by none that is the end of the tokens. -/
structure Extends (lx lx' : Lexer) : Prop where
  src : lx'.src = lx.src
  len : lx'.len = lx.len
  toks : ∃ new, lx'.toks = lx.toks ++ new ∧ ∀ t ∈ new, t.type ≠ .eof

theorem Extends.refl (lx : Lexer) : lx.Extends lx := ⟨rfl, rfl, [], (List.append_nil _).symm, by simp⟩

theorem Extends.trans {lx lx' lx'' : Lexer} (h : lx.Extends lx') (h' : lx'.Extends lx'') :
    lx.Extends lx'' := by
  obtain ⟨new, htoks, hnew⟩ := h.toks
  obtain ⟨new', htoks', hnew'⟩ := h'.toks
  refine ⟨h'.src.trans h.src, h'.len.trans h.len, new ++ new', ?_, ?_⟩
  · rw [htoks', htoks, List.append_assoc]
  · exact fun t ht => (List.mem_append.mp ht).elim (hnew t) (hnew' t)

/-- Any state with the same source and the same tokens. -/
theorem Extends.same (lx lx' : Lexer) (hsrc : lx'.src = lx.src) (hlen : lx'.len = lx.len)
    (htoks : lx'.toks = lx.toks) : lx.Extends lx' :=
  ⟨hsrc, hlen, [], by rw [htoks, List.append_nil], by simp⟩

variable {lx lx' : Lexer}

theorem Extends.from {lx₁ : Lexer} (h : lx₁.Extends lx') (hsrc : lx₁.src = lx.src) (hlen : lx₁.len = lx.len)
    (htoks : lx₁.toks = lx.toks) : lx.Extends lx' := (Extends.same lx lx₁ hsrc hlen htoks).trans h

theorem extends_push {type : TokType} (h : type ≠ .eof) (start len : ℕ) (l r : Bool) :
    lx.Extends (lx.push type start len l r) :=
  ⟨rfl, rfl, _, rfl, fun t ht => by rw [List.mem_singleton.mp ht]; exact h⟩

theorem Extends.ite {c : Prop} [Decidable c] {a b : Lexer} (ha : c → lx.Extends a)
    (hb : ¬c → lx.Extends b) : lx.Extends (if c then a else b) := by
  split_ifs with h
  · exact ha h
  · exact hb h

theorem extends_flushText (tagStart : ℕ) (before lstrip : Bool) :
    lx.Extends (lx.flushText tagStart before lstrip) := by
  have h : lx.Extends { lx with nextTrimNl := false } := .same _ _ rfl rfl rfl
  exact .ite (fun _ => h.trans (extends_push (by decide) _ _ _ _)) fun _ => h

theorem extends_take {type : TokType} (h : type ≠ .eof) (n : ℕ) : lx.Extends (lx.take type n) :=
  (extends_push h lx.pos n false false).trans (.same _ _ rfl rfl rfl)

theorem punctuation_type {c : Char} {type : TokType} (h : punctuation.lookup c = some type) :
    type ≠ .eof := by
  obtain ⟨l₁, l₂, heq, -⟩ := List.lookup_eq_some_iff.mp h
  have hmem : (c, type) ∈ punctuation := by rw [heq]; simp
  have hall : ∀ p ∈ punctuation, p.2 ≠ .eof := by decide
  exact hall _ hmem

theorem extends_tagToken : lx.Extends lx.tagToken := by
  unfold tagToken
  dsimp only
  refine .ite (fun _ => ?_) fun _ => .ite (fun _ => ?_) fun _ => .ite (fun _ => ?_) fun _ => ?_
  · exact (extends_push (by decide : TokType.string ≠ .eof) _ _ _ _).trans (.same _ _ rfl rfl rfl)
  · exact (extends_push (by decide : TokType.number ≠ .eof) _ _ _ _).trans (.same _ _ rfl rfl rfl)
  · exact (extends_push (by split_ifs <;> decide) _ _ _ _).trans (.same _ _ rfl rfl rfl)
  cases h : punctuation.lookup (byteAt lx.src lx.pos) with
  | some type => exact extends_take (punctuation_type h) 1
  | none =>
    have htwo : lx.Extends (lx.take .op 2) := extends_take (by decide) 2
    have hone : lx.Extends (lx.take .op 1) := extends_take (by decide) 1
    refine .ite (fun _ => htwo) fun _ => .ite (fun _ => htwo) fun _ => .ite (fun _ => htwo) fun _ => ?_
    refine .ite (fun _ => hone) fun _ => .ite (fun _ => hone) fun _ => ?_
    refine .trans ?_ (extends_take (by decide) 1)
    exact .same _ _ rfl rfl rfl

/-- The source fits 32-bit offsets and ends with its terminator or a newline. -/
structure Fits (lx : Lexer) : Prop where
  small : lx.len < 2 ^ 32
  len : lx.len ≤ lx.src.length
  last : byteAt lx.src lx.len = '\x00' ∨ byteAt lx.src lx.len = '\n'

theorem Fits.of_extends (h : lx.Extends lx') (hf : lx.Fits) : lx'.Fits :=
  ⟨h.len ▸ hf.small, h.len ▸ h.src ▸ hf.len, h.len ▸ h.src ▸ hf.last⟩

theorem Fits.ne_len (hf : lx.Fits) {i : ℕ} {c : Char} (h : byteAt lx.src i = c) (h₀ : c ≠ '\x00')
    (h₁ : c ≠ '\n') : i ≠ lx.len := by
  rintro rfl
  rcases hf.last with hl | hl
  · exact h₀ (h.symm.trans hl)
  · exact h₁ (h.symm.trans hl)

theorem Fits.twoAt (hf : lx.Fits) {i : ℕ} {a b : Char} (h : twoAt lx.src i a b) (hi : i ≤ lx.len)
    (ha : a ≠ '\x00' ∧ a ≠ '\n') (hb : b ≠ '\x00' ∧ b ≠ '\n') : i + 2 ≤ lx.len := by
  obtain ⟨h₁, h₂⟩ := Bool.and_eq_true_iff.mp h
  have := hf.ne_len (beq_iff_eq.mp h₁) ha.1 ha.2
  have := hf.ne_len (beq_iff_eq.mp h₂) hb.1 hb.2
  omega

theorem u32_eq {n : ℕ} (h : n < 2 ^ 32) : u32 n = n := Nat.mod_eq_of_lt h

/-- What a part of the lexer gives, if it has turns enough: another state further on in the source. -/
def Moves (lx : Lexer) (enough : Prop) (r : Option (Except String Lexer)) : Prop :=
  (lx.Fits → enough → r ≠ none) ∧
    ∀ lx', r = some (.ok lx') → lx.Extends lx' ∧ (lx.Fits → lx.pos < lx'.pos)

theorem skip_lt {p : Char → Bool} {pos : ℕ} (hlen : lx.len ≤ lx.src.length) (hpos : pos < lx.len)
    (h : p (byteAt lx.src pos)) : pos < lx.skip p pos := by
  have hsrc : pos < (lx.src.take lx.len).length := by rw [List.length_take]; omega
  have hget : (lx.src.take lx.len)[pos] = byteAt lx.src pos := by
    simp [byteAt, List.getD_eq_getElem?_getD, List.getElem?_eq_getElem (hpos.trans_le hlen)]
  unfold skip
  rw [List.drop_eq_getElem_cons hsrc, hget, List.takeWhile_cons_of_pos h, List.length_cons]
  omega

theorem le_skip {p : Char → Bool} {pos : ℕ} : pos ≤ lx.skip p pos := Nat.le_add_right _ _

theorem of_ite {P : Lexer → Prop} {c : Prop} [Decidable c] {a b : Lexer} (ha : c → P a) (hb : ¬c → P b) :
    P (if c then a else b) := by
  split_ifs with h
  · exact ha h
  · exact hb h

theorem numberEnd_lt (hf : lx.Fits) (hpos : lx.pos < lx.len) (h : (byteAt lx.src lx.pos).isDigit) :
    lx.pos < lx.numberEnd := by
  have hskip := skip_lt hf.len hpos h
  unfold numberEnd
  dsimp only
  split_ifs
  · exact hskip.trans_le ((Nat.le_succ _).trans le_skip)
  · exact hskip

theorem take_pos (hf : lx.Fits) {t : TokType} {n : ℕ} (hn : 0 < n) (h : lx.pos + n ≤ lx.len) :
    lx.pos < (lx.take t n).pos := by
  show lx.pos < u32 (lx.pos + n)
  rw [u32_eq (h.trans_lt hf.small)]
  omega

/-- A token inside a tag is not empty. -/
theorem tagToken_pos (hf : lx.Fits) (hpos : lx.pos < lx.len) : lx.pos < lx.tagToken.pos := by
  have hone : ∀ type, lx.pos < (lx.take type 1).pos := fun _ => take_pos hf Nat.one_pos hpos
  have htwo : byteAt lx.src (lx.pos + 1) = '=' → lx.pos < (lx.take .op 2).pos := fun h => by
    have := hf.ne_len h (by decide) (by decide)
    exact take_pos hf Nat.two_pos (by omega)
  unfold tagToken
  dsimp only
  refine of_ite (P := fun l => lx.pos < l.pos) (fun _ => ?_) fun _ =>
    of_ite (P := fun l => lx.pos < l.pos) (fun h => numberEnd_lt hf hpos h) fun _ =>
    of_ite (P := fun l => lx.pos < l.pos) (fun h => skip_lt hf.len hpos ?_) fun _ => ?_
  · dsimp only
    split_ifs <;> omega
  · simp only [isIdentStart, isIdentChar, Char.isAlphanum, Bool.or_eq_true] at h ⊢
    tauto
  cases punctuation.lookup (byteAt lx.src lx.pos) with
  | some type => exact hone type
  | none =>
    refine of_ite (P := fun l => lx.pos < l.pos) (fun h => htwo (by simp_all)) fun _ =>
      of_ite (P := fun l => lx.pos < l.pos) (fun h => htwo (by simp_all)) fun _ =>
      of_ite (P := fun l => lx.pos < l.pos) (fun h => htwo (by simp_all)) fun _ => ?_
    exact of_ite (P := fun l => lx.pos < l.pos) (fun _ => hone .op) fun _ =>
      of_ite (P := fun l => lx.pos < l.pos) (fun _ => hone .op) fun _ => hone .unknown

theorem extends_tagClose (n : ℕ) (strip : Bool) : lx.Extends (lx.tagClose n strip) :=
  (extends_push (by split_ifs <;> decide) _ _ _ _).trans (.same _ _ rfl rfl rfl)

theorem tagClose_pos (hf : lx.Fits) {n : ℕ} {strip : Bool} (hn : 0 < n) (h : lx.pos + n ≤ lx.len) :
    lx.pos < (lx.tagClose n strip).pos := take_pos (t := .text) hf hn h

theorem moves_error {enough : Prop} {msg : String} : lx.Moves enough (some (.error msg)) :=
  ⟨fun _ _ h => (nomatch h), fun _ h => nomatch h⟩

theorem moves_ok {enough : Prop} (h : lx.Extends lx') (hpos : lx.Fits → lx.pos < lx'.pos) :
    lx.Moves enough (some (.ok lx')) := by
  refine ⟨fun _ _ h => (nomatch h), fun lx'' heq => ?_⟩
  obtain rfl : lx' = lx'' := by simpa using heq
  exact ⟨h, hpos⟩

/-- A part of the lexer that comes after another state. -/
theorem Moves.after {lx₁ : Lexer} {E E' : Prop} {r : Option (Except String Lexer)}
    (h : lx₁.Moves E r) (hext : lx.Extends lx₁) (hpos : lx.pos ≤ lx₁.pos)
    (hen : lx.Fits → E' → E) : lx.Moves E' r := by
  refine ⟨fun hf he => h.1 (.of_extends hext hf) (hen hf he), fun lx' heq => ?_⟩
  obtain ⟨hext', hlt⟩ := h.2 lx' heq
  exact ⟨hext.trans hext', fun hf => hpos.trans_lt (hlt (.of_extends hext hf))⟩

theorem tagInner_moves (n : ℕ) : lx.Moves (0 < n ∧ lx.len < n + lx.pos) (tagInner n lx) := by
  induction n generalizing lx with
  | zero => exact ⟨fun _ h => absurd h.1 (Nat.lt_irrefl _), fun _ h => nomatch h⟩
  | succ n ih =>
    have hskip : lx.Extends { lx with pos := lx.skip isspace lx.pos } := .same _ _ rfl rfl rfl
    have hle : lx.pos ≤ ({ lx with pos := lx.skip isspace lx.pos } : Lexer).pos := le_skip
    unfold tagInner
    generalize { lx with pos := lx.skip isspace lx.pos } = lx₁ at hskip hle
    refine Moves.after (E := lx₁.len ≤ n + lx₁.pos) ?_ hskip hle fun _ h => by rw [hskip.len]; omega
    dsimp only
    have hbyte : lx₁.closeByte ≠ '\x00' ∧ lx₁.closeByte ≠ '\n' := by
      unfold closeByte
      split_ifs <;> decide
    split_ifs with hlen h₁ h₂
    · exact moves_error
    · obtain ⟨h, h₁⟩ := Bool.and_eq_true_iff.mp h₁
      refine moves_ok (extends_tagClose 3 true) fun hf => tagClose_pos hf (by decide) ?_
      exact hf.twoAt h₁ (by omega) hbyte (by decide)
    · refine moves_ok (extends_tagClose 2 false) fun hf => tagClose_pos hf (by decide) ?_
      exact hf.twoAt h₂ (by omega) hbyte (by decide)
    · refine ⟨fun hf hn => ?_, fun lx' heq => ?_⟩
      · have := tagToken_pos hf (by omega)
        refine ih.1 (.of_extends extends_tagToken hf) ⟨by omega, ?_⟩
        rw [extends_tagToken.len]
        omega
      · obtain ⟨hext, hlt⟩ := ih.2 lx' heq
        refine ⟨extends_tagToken.trans hext, fun hf => ?_⟩
        exact (tagToken_pos hf (by omega)).trans (hlt (.of_extends extends_tagToken hf))

theorem extends_tagOpen : lx.Extends lx.tagOpen := by
  have hne : ∀ b : Bool, (if b then TokType.exprOpen else .stmtOpen) ≠ .eof := by decide
  unfold tagOpen
  refine Extends.trans ?_ (extends_push (hne _) _ _ _ _)
  refine .ite (fun _ => ?_) fun _ => .same _ _ rfl rfl rfl
  exact (extends_flushText _ _ _).from rfl rfl rfl

theorem flushText_pos (tagStart : ℕ) (before lstrip : Bool) :
    (lx.flushText tagStart before lstrip).pos = lx.pos :=
  of_ite (P := fun l => l.pos = lx.pos) (fun _ => rfl) fun _ => rfl

theorem tagOpen_pos (hf : lx.Fits) (h : lx.pos + 2 ≤ lx.len) : lx.pos < lx.tagOpen.pos := by
  have hu : u32 (lx.pos + 2) = lx.pos + 2 := u32_eq (h.trans_lt hf.small)
  unfold tagOpen
  dsimp only [push]
  refine of_ite (P := fun l => lx.pos < l.pos) (fun _ => ?_) fun _ => ?_
  · rw [flushText_pos]
    dsimp only
    split_ifs <;> omega
  · dsimp only
    split_ifs <;> omega

theorem tag_moves (h : lx.Fits → lx.pos + 2 ≤ lx.len) : lx.Moves True lx.tag := by
  have hinner : lx.tagOpen.Moves _ _ := tagInner_moves (lx.len + 1)
  have hext : lx.Extends lx.tagOpen := extends_tagOpen
  unfold tag
  cases hr : tagInner (lx.len + 1) lx.tagOpen with
  | none =>
    refine ⟨fun hf _ => absurd hr (hinner.1 (.of_extends hext hf) ⟨Nat.succ_pos _, ?_⟩), fun _ h => nomatch h⟩
    rw [hext.len]
    omega
  | some e =>
    cases e with
    | error msg => exact moves_error
    | ok lx' =>
      obtain ⟨hext', hlt⟩ := hinner.2 lx' hr
      refine moves_ok ((hext.trans hext').trans (.same _ _ rfl rfl rfl)) fun hf => ?_
      exact (tagOpen_pos hf (h hf)).trans (hlt (.of_extends hext hf))

theorem commentEnd_moves (hf : lx.Fits) {n pos : ℕ} (hn : 0 < n) (h : lx.len < n + pos) :
    lx.commentEnd n pos ≠ none ∧ ∀ p b, lx.commentEnd n pos = some (some (p, b)) → pos < p := by
  induction n generalizing pos with
  | zero => exact absurd hn (Nat.lt_irrefl _)
  | succ n ih =>
    unfold commentEnd
    split_ifs with hlen h₁ h₂
    · exact ⟨by simp, by simp⟩
    · obtain ⟨-, h₁⟩ := Bool.and_eq_true_iff.mp h₁
      have := hf.twoAt h₁ (by omega) (by decide) (by decide)
      rw [u32_eq (by have := hf.small; omega)]
      exact ⟨by simp, fun p b hp => by simp at hp; omega⟩
    · have := hf.twoAt h₂ (by omega) (by decide) (by decide)
      rw [u32_eq (by have := hf.small; omega)]
      exact ⟨by simp, fun p b hp => by simp at hp; omega⟩
    · obtain ⟨hne, hlt⟩ := @ih (pos + 1) (by omega) (by omega)
      exact ⟨hne, fun p b hp => (Nat.lt_succ_self _).trans (hlt p b hp)⟩

theorem comment_moves (h : lx.Fits → lx.pos + 2 ≤ lx.len) : lx.Moves True lx.comment := by
  unfold comment
  dsimp only
  generalize hp : (if (decide (u32 (lx.pos + 2) < lx.len) && byteAt lx.src (u32 (lx.pos + 2)) == '-') = true
    then u32 (lx.pos + 2) + 1 else u32 (lx.pos + 2)) = p
  have hlt : lx.Fits → lx.pos < p := fun hf => by
    have hu : u32 (lx.pos + 2) = lx.pos + 2 := u32_eq ((h hf).trans_lt hf.small)
    rw [← hp]
    split_ifs <;> omega
  cases hr : lx.commentEnd (lx.len + 1) p with
  | none =>
    exact ⟨fun hf _ => absurd hr (commentEnd_moves hf (Nat.succ_pos _) (by omega)).1, fun _ h => nomatch h⟩
  | some e =>
    cases e with
    | none => exact moves_error
    | some e =>
      obtain ⟨q, after⟩ := e
      have hflush : ∀ before, ({ lx with pos := q } : Lexer).Extends
          (({ lx with pos := q } : Lexer).flushText lx.pos before true) := fun _ => extends_flushText _ _ _
      refine moves_ok ⟨(hflush _).src, (hflush _).len, (hflush _).toks⟩ fun hf => ?_
      have := (commentEnd_moves hf (Nat.succ_pos _) (by omega)).2 q after hr
      dsimp only
      rw [flushText_pos]
      exact (hlt hf).trans this

/-- What a turn of the lexer does. -/
theorem turn_moves (hpos : lx.pos < lx.len) : lx.Moves True lx.turn := by
  unfold turn
  split_ifs with h h'
  · exact comment_moves fun hf => hf.twoAt h hpos.le (by decide) (by decide)
  · refine tag_moves fun hf => ?_
    rcases Bool.or_eq_true_iff.mp h' with h' | h'
    · exact hf.twoAt h' hpos.le (by decide) (by decide)
    · exact hf.twoAt h' hpos.le (by decide) (by decide)
  · exact moves_ok (.same _ _ rfl rfl rfl) fun _ => Nat.lt_succ_self _

/-- With a turn for each byte the lexer ends. -/
theorem scan_ends {n : ℕ} (hf : lx.Fits) (hn : 0 < n) (h : lx.len < n + lx.pos) : scan n lx ≠ none := by
  induction n generalizing lx with
  | zero => exact absurd hn (Nat.lt_irrefl _)
  | succ n ih =>
    unfold scan
    split_ifs with hpos
    · simp
    obtain ⟨hsome, hok⟩ := turn_moves (Nat.lt_of_not_le hpos)
    match lx.turn, hsome, hok with
    | none, hsome, _ => exact absurd rfl (hsome hf trivial)
    | some (.error _), _, _ => simp
    | some (.ok lx'), _, hok =>
      obtain ⟨hext, hlt⟩ := hok lx' rfl
      have := hlt hf
      exact ih (.of_extends hext hf) (by omega) (by rw [hext.len]; omega)

theorem extends_scan {n : ℕ} (h : scan n lx = some (.ok lx')) : lx.Extends lx' := by
  induction n generalizing lx with
  | zero => cases h
  | succ n ih =>
    unfold scan at h
    split_ifs at h with hpos
    · obtain rfl : lx = lx' := by simpa using h
      exact .refl lx
    have hturn := turn_moves (Nat.lt_of_not_le hpos)
    match lx.turn, hturn, h with
    | some (.ok lx₁), hturn, h => exact (hturn.2 lx₁ rfl).1.trans (ih h)

end Lexer

theorem strlen_le (s : List Char) : strlen s ≤ s.length := (List.takeWhile_sublist _).length_le

theorem byteAt_strlen (s : List Char) : byteAt s (strlen s) = '\x00' := by
  induction s with
  | nil => rfl
  | cons c s ih =>
    by_cases hc : c = '\x00'
    · simp [strlen, byteAt, hc]
    · have hlen : strlen (c :: s) = strlen s + 1 := by
        simp [strlen, hc]
      rw [hlen]
      simpa [byteAt] using ih

theorem lexStart_fits {src : List Char} (h : strlen src < 2 ^ 32) : (lexStart src).Fits := by
  have hu : u32 (strlen src) = strlen src := Lexer.u32_eq h
  have hle := strlen_le src
  have hlast := byteAt_strlen src
  have hlen : (lexStart src).len = if 0 < strlen src && byteAt src (strlen src - 1) == '\n' then
      strlen src - 1 else strlen src := by
    unfold lexStart
    dsimp only
    rw [hu]
  refine ⟨?_, ?_, ?_⟩
  all_goals
    rw [hlen]
    split_ifs with hnl
  · omega
  · omega
  · exact (Nat.sub_le _ _).trans hle
  · exact hle
  · exact .inr (beq_iff_eq.mp (Bool.and_eq_true_iff.mp hnl).2)
  · exact .inl hlast

theorem jinjaLex_ends {src : List Char} (h : strlen src < 2 ^ 32) : jinjaLex src ≠ none := by
  have hf := lexStart_fits h
  have hends : Lexer.scan (src.length + 1) (lexStart src) ≠ none :=
    Lexer.scan_ends hf (Nat.succ_pos _) (Nat.lt_succ_of_le hf.len)
  unfold jinjaLex
  match Lexer.scan (src.length + 1) (lexStart src), hends with
  | some (.error _), _ => simp
  | some (.ok _), _ => simp

/-- The tokens of a source end with the only end token among them. -/
theorem jinjaLex_tokens {src : List Char} {lx : Lexer} (h : jinjaLex src = some (.ok lx)) :
    lx.src = src ∧ lx.len = (lexStart src).len ∧ ∃ body last, lx.toks = body ++ [last] ∧
      last.type = .eof ∧ ∀ t ∈ body, t.type ≠ .eof := by
  unfold jinjaLex at h
  match hscan : Lexer.scan (src.length + 1) (lexStart src), h with
  | some (.ok lx₁), h =>
    have hext : (lexStart src).Extends
        (if lx₁.textStart < lx₁.len || lx₁.nextStripLeft then lx₁.flushText lx₁.len false false else lx₁) :=
      (Lexer.extends_scan hscan).trans (.ite (fun _ => Lexer.extends_flushText _ _ _) fun _ => .refl _)
    obtain ⟨new, htoks, hnew⟩ := hext.toks
    simp only [Option.some.injEq, Except.ok.injEq] at h
    subst h
    exact ⟨hext.src, hext.len, new, _, by rw [Lexer.push, htoks]; rfl, rfl, hnew⟩

end Kappai.Jinja
