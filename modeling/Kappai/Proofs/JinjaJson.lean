import Kappai.Lib.JsonText
import Kappai.Spec.JinjaFilters

/-! The text of `tojson` is JSON for the value, and an indent only changes white space outside its
strings. -/

namespace Kappai.Jinja

open JsonText (Value)

section Reading

variable {F : Type} (P : Platform F) (heap : Heap F)

/-- A value of at most some depth, without macros and with finite numbers only. -/
def Built : ℕ → Addr → Prop
  | 0, _ => False
  | depth + 1, a =>
    match heap.obj a with
    | .float x => P.isfinite x = true
    | .dict es => ∀ e ∈ es, Built depth e.2
    | .list items => ∀ b ∈ items, Built depth b
    | .macroVal _ _ => False
    | _ => True

/-- The number of a literal that has no fraction and no exponent. -/
def literalInt : Text → ℤ
  | '-' :: ds => -Nat.ofDigitChars 10 ds 0
  | ds => Nat.ofDigitChars 10 ds 0

/-- A JSON value has the structure, the order, the strings and the numbers of the value at `a`. -/
def Denotes : ℕ → Addr → Value → Prop
  | 0, _, _ => False
  | depth + 1, a, v =>
    match heap.obj a with
    | .none => v = .null
    | .bool b => v = .bool b
    | .int n => ∃ literal, v = .number literal ∧ literalInt literal = n
    | .float x => ∃ literal, v = .number literal ∧ P.eq (.float (P.strtod literal)) (.float x) = true
    | .string s => v = .string s
    | .dict es => ∃ ms, v = .object ms ∧ List.Forall₂ (fun e m => m.1 = e.1 ∧ Denotes depth e.2 m.2) es ms
    | .list items => ∃ vs, v = .array vs ∧ List.Forall₂ (Denotes depth) items vs
    | .macroVal _ _ => False

/-- What `"%.*g"` writes of a finite number: an integer, a fraction or an exponent with digits. -/
def PrintfG (s : Text) : Prop :=
  ∃ sign ds frac exp, s = sign ++ ds ++ frac ++ exp ∧ (sign = [] ∨ sign = ['-']) ∧ ds ≠ [] ∧
    (∀ c ∈ ds, c.isDigit = true) ∧ (ds.head? = some '0' → ds = ['0']) ∧
    (frac = [] ∨ ∃ fs, frac = '.' :: fs ∧ fs ≠ [] ∧ ∀ c ∈ fs, c.isDigit = true) ∧
    (exp = [] ∨ ∃ s es, exp = 'e' :: s :: es ∧ (s = '+' ∨ s = '-') ∧ es ≠ [] ∧ ∀ c ∈ es, c.isDigit = true)

/-- The numbers of the platform are those of the C library: `text` is what `jinja_float` caches,
17 digits are enough, and a point and a zero change no integer. -/
structure CNumbers (fmt : ℕ → F → Text) : Prop where
  text : ∀ x, P.text x = jinjaFloatText P fmt x
  printf : ∀ precision x, P.isfinite x = true → PrintfG (fmt precision x)
  exact : ∀ x, P.isfinite x = true → P.eq (.float (P.strtod (fmt 17 x))) (.float x) = true
  point : ∀ s, PrintfG s → '.' ∉ s → 'e' ∉ s → P.strtod (s ++ ['.', '0']) = P.strtod s

end Reading

open JsonText

/-! ### Numbers -/

theorem toDigits_head (n : ℕ) : (Nat.toDigits 10 n).head? = some '0' → Nat.toDigits 10 n = ['0'] := by
  induction n using Nat.strongRecOn with
  | ind n ih =>
    intro h
    by_cases hlt : n < 10
    · rw [Nat.toDigits_of_lt_base hlt] at h ⊢
      simpa using h
    · rw [Nat.toDigits_of_base_le (by decide) (by omega)] at h
      have hne : Nat.toDigits 10 (n / 10) ≠ [] := Nat.toDigits_ne_nil
      rw [List.head?_append_of_ne_nil _ hne] at h
      have hzero := ih (n / 10) (by omega) h
      have hvalue := Nat.ofDigitChars_toDigits (b := 10) (n := n / 10) (by decide) (by decide)
      rw [hzero] at hvalue
      have : Nat.ofDigitChars 10 ['0'] 0 = 0 := by decide
      omega

theorem toDigits_parts (n : ℕ) {sign : Text} (hsign : sign = [] ∨ sign = ['-']) :
    NumberParts sign (Nat.toDigits 10 n) [] [] where
  sign := hsign
  ne := Nat.toDigits_ne_nil
  digits _ hc := Nat.isDigit_of_mem_toDigits (by decide) (by decide) hc
  zero := toDigits_head n
  frac := .inl rfl
  exp := .inl rfl

theorem intText_parts (n : ℤ) : ∃ sign ds, intText n = sign ++ ds ++ [] ++ [] ∧ NumberParts sign ds [] [] := by
  cases n with
  | ofNat n => exact ⟨[], _, by simp [intText], toDigits_parts n (.inl rfl)⟩
  | negSucc n => exact ⟨['-'], _, by simp [intText], toDigits_parts (n + 1) (.inr rfl)⟩

theorem literalInt_intText (n : ℤ) : literalInt (intText n) = n := by
  have hvalue : ∀ m, Nat.ofDigitChars 10 (Nat.toDigits 10 m) 0 = m := fun m =>
    Nat.ofDigitChars_toDigits (by decide) (by decide)
  cases n with
  | ofNat n =>
    have hminus : ∀ ds, Nat.toDigits 10 n ≠ '-' :: ds := by
      intro ds h
      have hdigit := Nat.isDigit_of_mem_toDigits (b := 10) (n := n) (c := '-') (by decide) (by decide)
        (by rw [h]; simp)
      exact absurd hdigit (by decide)
    rw [intText, literalInt]
    · rw [hvalue]
      rfl
    · exact hminus
  | negSucc n =>
    rw [intText, literalInt, hvalue]
    rfl

section Floats

variable {F : Type} {P : Platform F} {fmt : ℕ → F → Text}

theorem PrintfG.parts {s : Text} (h : PrintfG s) :
    ∃ sign ds frac exp, s = sign ++ ds ++ frac ++ exp ∧ NumberParts sign ds frac exp ∧
      ('.' ∉ s → frac = []) ∧ ('e' ∉ s → exp = []) := by
  obtain ⟨sign, ds, frac, exp, rfl, hsign, hne, hds, hzero, hfrac, hexp⟩ := h
  refine ⟨sign, ds, frac, exp, rfl, ⟨hsign, hne, hds, hzero, hfrac, ?_⟩, fun hdot => ?_, fun he => ?_⟩
  · refine hexp.imp_right fun ⟨s, es, heq, hs, hes, hdigits⟩ => ⟨'e', [s], es, heq, .inl rfl, ?_, hes, hdigits⟩
    rcases hs with rfl | rfl
    · exact .inr (.inl rfl)
    · exact .inr (.inr rfl)
  · refine hfrac.resolve_right ?_
    rintro ⟨fs, rfl, -⟩
    exact hdot (by simp)
  · refine hexp.resolve_right ?_
    rintro ⟨s, es, rfl, -⟩
    exact he (by simp)

/-- The text of a finite number is a literal that reads back. -/
theorem floatText_parts (hP : CNumbers P fmt) {x : F} (hx : P.isfinite x = true) :
    (∃ sign ds frac exp, P.text x = sign ++ ds ++ frac ++ exp ∧ NumberParts sign ds frac exp) ∧
      P.eq (.float (P.strtod (P.text x))) (.float x) = true := by
  rw [hP.text x, jinjaFloatText]
  obtain ⟨p, hp, hback⟩ : ∃ p, (((List.range' 1 17).find? fun precision => !P.isfinite x ||
      P.eq (.float (P.strtod (fmt precision x))) (.float x)).getD 17) = p ∧
      P.eq (.float (P.strtod (fmt p x))) (.float x) = true := by
    refine ⟨_, rfl, ?_⟩
    cases hfind : (List.range' 1 17).find? fun precision => !P.isfinite x ||
        P.eq (.float (P.strtod (fmt precision x))) (.float x) with
    | none => exact hP.exact x hx
    | some p => simpa [hx] using List.find?_some hfind
  have hprintf := hP.printf p x hx
  obtain ⟨sign, ds, frac, exp, hs, hparts, hfrac, hexp⟩ := hprintf.parts
  simp only [hp]
  by_cases hint : P.isfinite x = true ∧ '.' ∉ fmt p x ∧ 'e' ∉ fmt p x
  · rw [if_pos hint, hP.point _ hprintf hint.2.1 hint.2.2]
    refine ⟨⟨sign, ds, ['.', '0'], [], ?_, hparts.sign, hparts.ne, hparts.digits, hparts.zero, .inr ?_,
      .inl rfl⟩, hback⟩
    · rw [hs, hfrac hint.2.1, hexp hint.2.2]
      simp
    · exact ⟨['0'], rfl, by simp, by simp⟩
  · rw [if_neg hint]
    exact ⟨⟨sign, ds, frac, exp, hs, hparts⟩, hback⟩

end Floats

/-! ### Strings -/

/-- The four digits of a control character. -/
theorem hexEscape_eq : ∀ n < 32, hexEscape (Char.ofNat n) =
      ['\\', 'u', '0', '0', Nat.digitChar (n / 16), Nat.digitChar (n % 16)] ∧
    hexDigit (Nat.digitChar (n / 16)) = some (n / 16) ∧ hexDigit (Nat.digitChar (n % 16)) = some (n % 16) ∧
    Nat.digitChar (n / 16) ≠ '\\' ∧ Nat.digitChar (n % 16) ≠ '\\' ∧
    Nat.digitChar (n / 16) ≠ '\x22' ∧ Nat.digitChar (n % 16) ≠ '\x22' := by
  decide +kernel

example : hexEscape '\x1f' = ['\\', 'u', '0', '0', '1', 'f'] := by decide +kernel

/-- An escaped character does not begin as the closing quote does, and is read as the character. -/
theorem readChar_escape (c : Char) (rest : Text) :
    (jsonEscapeChar c ++ rest).head? ≠ some '\x22' ∧ readChar (jsonEscapeChar c ++ rest) = some (c, rest) := by
  unfold jsonEscapeChar
  split_ifs with hquote hback hnl hcr htab hctl
  · exact ⟨by simp, by rw [hquote]; rfl⟩
  · exact ⟨by simp, by rw [hback]; rfl⟩
  · exact ⟨by simp, by rw [hnl]; rfl⟩
  · exact ⟨by simp, by rw [hcr]; rfl⟩
  · exact ⟨by simp, by rw [htab]; rfl⟩
  · obtain ⟨htext, hhi, hlo, -⟩ := hexEscape_eq c.toNat hctl
    rw [Char.ofNat_toNat] at htext
    refine ⟨by rw [htext]; simp, ?_⟩
    have hunit : readUnit ('0' :: '0' :: Nat.digitChar (c.toNat / 16) :: Nat.digitChar (c.toNat % 16) :: rest) =
        some (c.toNat, rest) := by
      have hzero : hexDigit '0' = some 0 := by decide
      rw [readUnit, hzero, hhi, hlo]
      simp only [Option.bind_some, Option.map_some]
      congr 2
      omega
    rw [htext]
    change readEscape ('u' :: '0' :: '0' :: Nat.digitChar (c.toNat / 16) ::
      Nat.digitChar (c.toNat % 16) :: rest) = _
    rw [readEscape, if_pos rfl, hunit, Option.bind_some, if_neg (by dsimp only; omega),
      if_neg (by dsimp only; omega), Char.ofNat_toNat]
  · refine ⟨by simpa using hquote, ?_⟩
    rw [List.cons_append, List.nil_append, readChar, if_neg hback, if_neg hctl]

theorem readString_escape (s : Text) (n : ℕ) (rest : Text) (hn : (jsonEscape s).length < n) :
    readString n (jsonEscape s ++ '\x22' :: rest) = some (s, rest) := by
  induction s generalizing n with
  | nil =>
    obtain ⟨n, rfl⟩ : ∃ m, n = m + 1 := ⟨n - 1, by omega⟩
    rfl
  | cons c s ih =>
    obtain ⟨n, rfl⟩ : ∃ m, n = m + 1 := ⟨n - 1, by omega⟩
    have htext : jsonEscape (c :: s) = jsonEscapeChar c ++ jsonEscape s := rfl
    have hpos : 0 < (jsonEscapeChar c).length := by
      refine List.length_pos_of_ne_nil fun hnil => ?_
      have hread := (readChar_escape c []).2
      rw [hnil] at hread
      cases hread
    rw [htext, List.length_append] at hn
    obtain ⟨hhead, hread⟩ := readChar_escape c (jsonEscape s ++ '\x22' :: rest)
    rw [htext, List.append_assoc, readString, if_neg hhead, hread, Option.bind_some, ih n (by omega)]
    rfl

theorem squeeze_escapeChar (c : Char) (rest : Text) :
    squeeze true (jsonEscapeChar c ++ rest) = jsonEscapeChar c ++ squeeze true rest := by
  unfold jsonEscapeChar
  split_ifs with hquote hback hnl hcr htab hctl
  · rfl
  · rfl
  · rfl
  · rfl
  · rfl
  · obtain ⟨htext, -, -, hhi, hlo, hhi', hlo'⟩ := hexEscape_eq c.toNat hctl
    rw [Char.ofNat_toNat] at htext
    rw [htext]
    simp [squeeze, hhi, hlo, hhi', hlo']
  · simp [squeeze, hquote, hback]

theorem squeeze_escape (s rest : Text) :
    squeeze true (jsonEscape s ++ '\x22' :: rest) = jsonEscape s ++ '\x22' :: squeeze false rest := by
  induction s with
  | nil => rfl
  | cons c s ih =>
    have htext : jsonEscape (c :: s) = jsonEscapeChar c ++ jsonEscape s := rfl
    rw [htext, List.append_assoc, squeeze_escapeChar, ih, List.append_assoc]

theorem jsonStr_eq (s : Text) : jsonStr s = '\x22' :: (jsonEscape s ++ ['\x22']) := by
  simp [jsonStr]

/-! ### Brackets -/

/-- What may stand between the items of a list: before an item, after a comma and at the end. -/
def lineText (indent : ℤ) (level : ℕ) : Text := if 0 < indent then jsonNewline indent (level + 1) else []

def spaceText (indent : ℤ) : Text := if 0 < indent then [] else [' ']

def lastText (indent : ℤ) (level : ℕ) : Text := if 0 < indent then jsonNewline indent level else []

theorem ws_newline (indent : ℤ) (level : ℕ) : ∀ c ∈ jsonNewline indent level, isWs c = true := by
  intro c hc
  rcases List.mem_cons.1 hc with rfl | hc
  · decide
  · rw [List.eq_of_mem_replicate hc]
    decide

theorem ws_texts (indent : ℤ) (level : ℕ) : (∀ c ∈ lineText indent level, isWs c = true) ∧
    (∀ c ∈ spaceText indent, isWs c = true) ∧ ∀ c ∈ lastText indent level, isWs c = true := by
  unfold lineText spaceText lastText
  split_ifs
  · exact ⟨ws_newline indent _, by simp, ws_newline indent level⟩
  · refine ⟨by simp, fun c hc => ?_, by simp⟩
    rw [List.mem_singleton.1 hc]
    decide

theorem intercalate_eq (space line t : Text) (texts : List Text) :
    (',' :: space).intercalate ((t :: texts).map (line ++ ·)) =
      line ++ t ++ texts.flatMap fun t => ',' :: (space ++ line ++ t) := by
  induction texts generalizing t with
  | nil => simp
  | cons t' texts ih =>
    have hcons := ih t'
    rw [List.map_cons] at hcons
    rw [List.map_cons, List.map_cons, List.intercalate_cons_cons, hcons]
    simp

theorem jsonElems_eq (indent : ℤ) (level : ℕ) (start close : Char) (t : Text) (texts : List Text) :
    jsonElems indent level [start] [close] (t :: texts) = start :: (lineText indent level ++
      (t ++ tailText close (lineText indent level) (spaceText indent) (lastText indent level) texts)) := by
  have hsep : (if 0 < indent then [','] else [',', ' ']) = ',' :: spaceText indent := by
    unfold spaceText
    split_ifs <;> rfl
  rw [jsonElems, if_neg (by simp)]
  simp only [hsep]
  rw [← lineText, ← lastText, intercalate_eq]
  simp [tailText]

theorem mapM_cons_eq_some {α β : Type*} {f : α → Option β} {a : α} {as : List α} {bs : List β} :
    (a :: as).mapM f = some bs ↔ ∃ b bs', f a = some b ∧ as.mapM f = some bs' ∧ bs = b :: bs' := by
  rw [List.mapM_cons]
  constructor
  · intro h
    obtain ⟨b, hb, h⟩ := Option.bind_eq_some_iff.1 h
    obtain ⟨bs', hbs, h⟩ := Option.bind_eq_some_iff.1 h
    exact ⟨b, bs', hb, hbs, (Option.some.inj h).symm⟩
  · rintro ⟨b, bs', hb, hbs, rfl⟩
    rw [hb, hbs]
    rfl

/-- Texts for all items, and what they denote. -/
theorem exists_mapM {α β γ : Type*} {f : α → Option β} {R : α → γ → Prop} {S : β → γ → Prop} {as : List α}
    (h : ∀ a ∈ as, ∃ b c, f a = some b ∧ R a c ∧ S b c) :
    ∃ bs cs, as.mapM f = some bs ∧ List.Forall₂ R as cs ∧ List.Forall₂ S bs cs := by
  induction as with
  | nil => exact ⟨[], [], rfl, .nil, .nil⟩
  | cons a as ih =>
    obtain ⟨b, c, hb, hR, hS⟩ := h a (by simp)
    obtain ⟨bs, cs, hbs, hRs, hSs⟩ := ih fun a' ha' => h a' (by simp [ha'])
    exact ⟨b :: bs, c :: cs, mapM_cons_eq_some.2 ⟨b, bs, hb, hbs, rfl⟩, .cons hR hRs, .cons hS hSs⟩

theorem mapM_forall₂ {α β : Type*} {f g : α → Option β} {R : β → β → Prop} {as : List α} {bs bs' : List β}
    (h : ∀ a ∈ as, ∀ b b', f a = some b → g a = some b' → R b b') (hf : as.mapM f = some bs)
    (hg : as.mapM g = some bs') : List.Forall₂ R bs bs' := by
  induction as generalizing bs bs' with
  | nil =>
    obtain rfl := Option.some.inj hf
    obtain rfl := Option.some.inj hg
    exact .nil
  | cons a as ih =>
    obtain ⟨b, bs, hb, hbs, rfl⟩ := mapM_cons_eq_some.1 hf
    obtain ⟨b', bs', hb', hbs', rfl⟩ := mapM_cons_eq_some.1 hg
    exact .cons (h a (by simp) b b' hb hb') (ih (fun a ha => h a (by simp [ha])) hbs hbs')

/-! ### Values -/

/-- A text is read as a value by a reader that may go as deep as the text is long. -/
def ReadsLong {α : Type*} (item : (Text → Option (JsonText.Value × Text)) → Text → Option (α × Text))
    (t : Text) (x : α) : Prop :=
  ∀ depth, t.length < depth → JsonText.Reads (item (readValue depth)) t x

theorem ReadsLong.forall₂ {α : Type*} {item : (Text → Option (JsonText.Value × Text)) → Text → Option (α × Text)}
    {texts : List Text} {xs : List α} (h : List.Forall₂ (ReadsLong item) texts xs) {depth : ℕ}
    (hlen : ∀ t ∈ texts, t.length < depth) : List.Forall₂ (JsonText.Reads (item (readValue depth))) texts xs := by
  induction h with
  | nil => exact .nil
  | cons hx _ ih => exact .cons (hx depth (hlen _ (by simp))) (ih fun t ht => hlen t (by simp [ht]))

theorem length_le_tailText (close : Char) (line space last : Text) (texts : List Text) :
    ∀ t ∈ texts, t.length ≤ (tailText close line space last texts).length := by
  intro t ht
  have hsub : t.length ≤ (texts.flatMap fun t => ',' :: (space ++ line ++ t)).length := by
    obtain ⟨as, bs, rfl⟩ := List.mem_iff_append.1 ht
    simp only [List.flatMap_append, List.flatMap_cons, List.length_append, List.length_cons]
    omega
  simp only [tailText, List.length_append]
  omega

section Value

variable {F : Type} {P : Platform F} {fmt : ℕ → F → Text} {heap : Heap F} {indent : ℤ}

/-- A list: its items, each on a line of its own or not. -/
theorem array_reads {level : ℕ} {texts : List Text} {vs : List JsonText.Value}
    (h : List.Forall₂ (ReadsLong id) texts vs) :
    ReadsLong id (jsonElems indent level ['['] [']'] texts) (.array vs) := by
  obtain ⟨hline, hspace, hlast⟩ := ws_texts indent level
  intro depth hdepth
  cases h with
  | nil =>
    obtain ⟨depth, rfl⟩ : ∃ d, depth = d + 1 := ⟨depth - 1, by omega⟩
    exact (reads_empty depth).1
  | @cons t v texts vs hx hxs =>
    rw [jsonElems_eq] at hdepth ⊢
    simp only [List.length_cons, List.length_append] at hdepth
    have htail := length_le_tailText ']' (lineText indent level) (spaceText indent) (lastText indent level) texts
    obtain ⟨depth, rfl⟩ : ∃ d, depth = d + 1 := ⟨depth - 1, by omega⟩
    refine reads_array hline hspace hlast (hx depth (by omega)) (ReadsLong.forall₂ hxs fun t ht => ?_)
    have := htail t ht
    omega

theorem object_reads {level : ℕ} {texts : List Text} {ms : List (Text × JsonText.Value)}
    (h : List.Forall₂ (ReadsLong readMember) texts ms) :
    ReadsLong id (jsonElems indent level ['\x7b'] ['\x7d'] texts) (.object ms) := by
  obtain ⟨hline, hspace, hlast⟩ := ws_texts indent level
  intro depth hdepth
  cases h with
  | nil =>
    obtain ⟨depth, rfl⟩ : ∃ d, depth = d + 1 := ⟨depth - 1, by omega⟩
    exact (reads_empty depth).2
  | @cons t v texts vs hx hxs =>
    rw [jsonElems_eq] at hdepth ⊢
    simp only [List.length_cons, List.length_append] at hdepth
    have htail := length_le_tailText '\x7d' (lineText indent level) (spaceText indent) (lastText indent level) texts
    obtain ⟨depth, rfl⟩ : ∃ d, depth = d + 1 := ⟨depth - 1, by omega⟩
    refine reads_object hline hspace hlast (hx depth (by omega)) (ReadsLong.forall₂ hxs fun t ht => ?_)
    have := htail t ht
    omega

theorem member_reads {key t : Text} {v : JsonText.Value} (h : ReadsLong id t v) :
    ReadsLong readMember (jsonStr key ++ [':', ' '] ++ t) (key, v) := by
  intro depth hdepth
  have hlen : t.length < depth := by
    simp only [List.length_append] at hdepth
    omega
  have hread := reads_member (readString_escape key) (List.forall_mem_singleton.2 rfl : ∀ c ∈ [' '], isWs c = true)
    (h depth hlen)
  rw [jsonStr_eq]
  simpa using hread

theorem str_reads (s : Text) : ReadsLong id (jsonStr s) (.string s) := by
  intro depth hdepth
  obtain ⟨depth, rfl⟩ : ∃ d, depth = d + 1 := ⟨depth - 1, by omega⟩
  rw [jsonStr_eq]
  exact reads_string (readString_escape s) depth

theorem number_reads {sign ds frac exp : Text} (h : NumberParts sign ds frac exp) :
    ReadsLong id (sign ++ ds ++ frac ++ exp) (.number (sign ++ ds ++ frac ++ exp)) := by
  intro depth hdepth
  obtain ⟨depth, rfl⟩ : ∃ d, depth = d + 1 := ⟨depth - 1, by omega⟩
  exact reads_number h depth

/-- The text of a value is read as what the value is. -/
theorem jsonToJson_reads (hP : CNumbers P fmt) (indent : ℤ) (depth : ℕ) {a : Addr} (ha : Built P heap depth a)
    (level : ℕ) : ∃ t v, jsonToJson P heap indent depth a level = some t ∧ Denotes P heap depth a v ∧
      ReadsLong id t v := by
  induction depth generalizing a level with
  | zero => exact ha.elim
  | succ depth ih =>
    rw [Built] at ha
    simp only [jsonToJson, Denotes]
    have hword : ∀ n, 0 < n → ∃ d, n = d + 1 := fun n hn => ⟨n - 1, by omega⟩
    cases hobj : heap.obj a with
    | none =>
      refine ⟨_, _, rfl, rfl, fun n hn => ?_⟩
      obtain ⟨d, rfl⟩ := hword n (by omega)
      exact (reads_word d).1
    | bool b =>
      refine ⟨_, _, rfl, rfl, fun n hn => ?_⟩
      obtain ⟨d, rfl⟩ := hword n (by omega)
      cases b with
      | true => exact (reads_word d).2.1
      | false => exact (reads_word d).2.2
    | int n =>
      obtain ⟨sign, ds, htext, hparts⟩ := intText_parts n
      refine ⟨_, _, rfl, ⟨_, rfl, literalInt_intText n⟩, ?_⟩
      rw [htext]
      exact number_reads hparts
    | float x =>
      rw [hobj] at ha
      obtain ⟨⟨sign, ds, frac, exp, htext, hparts⟩, hback⟩ := floatText_parts hP ha
      refine ⟨_, _, congrArg some (if_pos ha), ⟨_, rfl, hback⟩, ?_⟩
      rw [htext]
      exact number_reads hparts
    | string s => exact ⟨_, _, rfl, rfl, str_reads s⟩
    | dict es =>
      rw [hobj] at ha
      have hmembers : ∀ e ∈ es, ∃ t m, (jsonToJson P heap indent depth e.2 (level + 1)).map
          (fun t => jsonStr e.1 ++ [':', ' '] ++ t) = some t ∧
          (m.1 = e.1 ∧ Denotes P heap depth e.2 m.2) ∧ ReadsLong readMember t m := by
        intro e he
        obtain ⟨t, v, ht, hv, hr⟩ := ih (ha e he) (level + 1)
        exact ⟨_, (e.1, v), by rw [ht, Option.map_some], ⟨rfl, hv⟩, member_reads hr⟩
      obtain ⟨texts, ms, htexts, hdenotes, hreads⟩ := exists_mapM hmembers
      exact ⟨jsonElems indent level ['\x7b'] ['\x7d'] texts, _,
        Option.bind_eq_some_iff.2 ⟨texts, htexts, rfl⟩, ⟨ms, rfl, hdenotes⟩, object_reads hreads⟩
    | list items =>
      rw [hobj] at ha
      obtain ⟨texts, vs, htexts, hdenotes, hreads⟩ := exists_mapM fun b hb => ih (ha b hb) (level + 1)
      exact ⟨jsonElems indent level ['['] [']'] texts, _,
        Option.bind_eq_some_iff.2 ⟨texts, htexts, rfl⟩, ⟨vs, rfl, hdenotes⟩, array_reads hreads⟩
    | macroVal params body =>
      rw [hobj] at ha
      exact ha.elim

/-! ### Indents -/

/-- Two texts are the same but for white space outside their strings. -/
def SameSqueezed (t t' : Text) : Prop := Closed t ∧ Closed t' ∧ squeeze false t = squeeze false t'

theorem same_of_closed {t : Text} (h : Closed t) : SameSqueezed t t := ⟨h, h, rfl⟩

theorem SameSqueezed.append {s s' t t' : Text} (hs : SameSqueezed s s') (ht : SameSqueezed t t') :
    SameSqueezed (s ++ t) (s' ++ t') := by
  refine ⟨hs.1.append ht.1, hs.2.1.append ht.2.1, ?_⟩
  rw [hs.1, hs.2.1, hs.2.2, ht.2.2]

theorem parts_noQuote {sign ds frac exp : Text} (h : NumberParts sign ds frac exp) :
    '\x22' ∉ sign ++ ds ++ frac ++ exp := by
  have hdigits : ∀ cs : Text, (∀ c ∈ cs, c.isDigit = true) → '\x22' ∉ cs := fun cs hcs hmem =>
    absurd (hcs _ hmem) (by decide)
  simp only [List.mem_append, not_or]
  refine ⟨⟨⟨?_, hdigits ds h.digits⟩, ?_⟩, ?_⟩
  · rcases h.sign with rfl | rfl <;> decide
  · rcases h.frac with rfl | ⟨fs, rfl, -, hfs⟩
    · simp
    · simpa using hdigits fs hfs
  · rcases h.exp with rfl | ⟨e, s, es, rfl, he, hs, -, hes⟩
    · simp
    · have hes := hdigits es hes
      rcases he with rfl | rfl <;> rcases hs with rfl | rfl | rfl <;> simpa using hes

theorem elems_same {indent' : ℤ} {start close : Char} (hstart : start = '[' ∨ start = '\x7b')
    (hclose : close = ']' ∨ close = '\x7d') (level level' : ℕ) {texts texts' : List Text}
    (h : List.Forall₂ SameSqueezed texts texts') :
    SameSqueezed (jsonElems indent level [start] [close] texts)
      (jsonElems indent' level' [start] [close] texts') := by
  have hclosed : ∀ {texts texts' : List Text}, List.Forall₂ SameSqueezed texts texts' →
      (∀ t ∈ texts, Closed t) ∧ (∀ t ∈ texts', Closed t) ∧
        texts.flatMap (fun t => ',' :: squeeze false t) = texts'.flatMap fun t => ',' :: squeeze false t := by
    intro texts texts' h
    induction h with
    | nil => exact ⟨by simp, by simp, rfl⟩
    | cons ht _ ih =>
      refine ⟨by simpa using ⟨ht.1, ih.1⟩, by simpa using ⟨ht.2.1, ih.2.1⟩, ?_⟩
      rw [List.flatMap_cons, List.flatMap_cons, ht.2.2, ih.2.2]
  cases h with
  | nil =>
    have hnil : ∀ (indent : ℤ) (level : ℕ), jsonElems indent level [start] [close] [] = [start, close] :=
      fun _ _ => if_pos rfl
    rw [hnil, hnil]
    refine same_of_closed (closed_plain ?_)
    rcases hstart with rfl | rfl <;> rcases hclose with rfl | rfl <;> decide
  | cons ht hts =>
    obtain ⟨hall, hall', hflat⟩ := hclosed hts
    obtain ⟨hline, hspace, hlast⟩ := ws_texts indent level
    obtain ⟨hline', hspace', hlast'⟩ := ws_texts indent' level'
    obtain ⟨hc, hs⟩ := closed_brackets hline hspace hlast hstart hclose ht.1 hall
    obtain ⟨hc', hs'⟩ := closed_brackets hline' hspace' hlast' hstart hclose ht.2.1 hall'
    rw [jsonElems_eq, jsonElems_eq]
    exact ⟨hc, hc', by rw [hs, hs', ht.2.2, hflat]⟩

theorem str_closed (s : Text) : Closed (jsonStr s) := by
  rw [jsonStr_eq]
  exact (squeeze_string (squeeze_escape s)).1

theorem jsonToJson_same (hP : CNumbers P fmt) {indent' : ℤ} (depth : ℕ) {a : Addr}
    (ha : Built P heap depth a) {level level' : ℕ} {t t' : Text}
    (h : jsonToJson P heap indent depth a level = some t)
    (h' : jsonToJson P heap indent' depth a level' = some t') : SameSqueezed t t' := by
  induction depth generalizing a level level' t t' with
  | zero => exact ha.elim
  | succ depth ih =>
    rw [Built] at ha
    simp only [jsonToJson] at h h'
    cases hobj : heap.obj a with
    | none =>
      rw [hobj] at h h'
      obtain rfl := Option.some.inj h
      obtain rfl := Option.some.inj h'
      exact same_of_closed (closed_plain (by decide))
    | bool b =>
      rw [hobj] at h h'
      obtain rfl := Option.some.inj h
      obtain rfl := Option.some.inj h'
      cases b <;> exact same_of_closed (closed_plain (by decide))
    | int n =>
      rw [hobj] at h h'
      obtain rfl := Option.some.inj h
      obtain rfl := Option.some.inj h'
      obtain ⟨sign, ds, htext, hparts⟩ := intText_parts n
      rw [htext]
      exact same_of_closed (closed_plain (parts_noQuote hparts))
    | float x =>
      rw [hobj] at h h' ha
      obtain ⟨⟨sign, ds, frac, exp, htext, hparts⟩, -⟩ := floatText_parts hP ha
      obtain rfl := Option.some.inj h
      obtain rfl := Option.some.inj h'
      rw [if_pos ha, htext]
      exact same_of_closed (closed_plain (parts_noQuote hparts))
    | string s =>
      rw [hobj] at h h'
      obtain rfl := Option.some.inj h
      obtain rfl := Option.some.inj h'
      exact same_of_closed (str_closed s)
    | dict es =>
      rw [hobj] at h h' ha
      obtain ⟨texts, htexts, h⟩ := Option.bind_eq_some_iff.1 h
      obtain ⟨texts', htexts', h'⟩ := Option.bind_eq_some_iff.1 h'
      obtain rfl := Option.some.inj h
      obtain rfl := Option.some.inj h'
      refine elems_same (.inr rfl) (.inr rfl) level level' (mapM_forall₂ (fun e he s s' hs hs' => ?_) htexts htexts')
      obtain ⟨t, ht, rfl⟩ := Option.map_eq_some_iff.1 hs
      obtain ⟨t', ht', rfl⟩ := Option.map_eq_some_iff.1 hs'
      have hkey : Closed (jsonStr e.1 ++ [':', ' ']) := (str_closed e.1).append (closed_plain (by decide))
      exact (same_of_closed hkey).append (ih (ha e he) ht ht')
    | list items =>
      rw [hobj] at h h' ha
      obtain ⟨texts, htexts, h⟩ := Option.bind_eq_some_iff.1 h
      obtain ⟨texts', htexts', h'⟩ := Option.bind_eq_some_iff.1 h'
      obtain rfl := Option.some.inj h
      obtain rfl := Option.some.inj h'
      exact elems_same (.inl rfl) (.inl rfl) level level'
        (mapM_forall₂ (fun b hb s s' hs hs' => ih (ha b hb) hs hs') htexts htexts')
    | macroVal params body =>
      rw [hobj] at ha
      exact ha.elim

end Value

/-- The text of `tojson` is JSON for the value, and with another indent it is the same but for white
space outside strings. -/
theorem tojson_denotes {F : Type} {P : Platform F} {fmt : ℕ → F → Text} (hP : CNumbers P fmt)
    (heap : Heap F) (depth : ℕ) (a : Addr) (ha : Built P heap depth a) (indent : ℤ) :
    ∃ text v, jsonToJson P heap indent depth a 0 = some text ∧ JsonText.read text = some v ∧
      Denotes P heap depth a v ∧
      ∀ indent', ∃ text', jsonToJson P heap indent' depth a 0 = some text' ∧
        squeeze false text' = squeeze false text := by
  obtain ⟨text, v, htext, hdenotes, hreads⟩ := jsonToJson_reads hP indent depth ha 0
  refine ⟨text, v, htext, read_eq (hreads _ (Nat.lt_succ_self _)), hdenotes, fun indent' => ?_⟩
  obtain ⟨text', -, htext', -, -⟩ := jsonToJson_reads hP indent' depth ha 0
  exact ⟨text', htext', (jsonToJson_same hP depth ha htext' htext).2.2⟩

/-- A platform with the numbers from 0.0 to 9.0. -/
def digitNumbers : Platform (Fin 10) where
  strtod s := Fin.ofNat 10 ((s.headD '0').toNat - 48)
  text x := [Nat.digitChar x, '.', '0']
  isZero x := x = 0
  isfinite _ := true
  add _ _ := 0
  sub _ _ := 0
  eq
    | .float x, .float y => x = y
    | _, _ => false
  lt _ _ := false
  le _ _ := false
  strftimeNow s := s

theorem digitChar_digit : ∀ n < 10, (Nat.digitChar n).isDigit = true := by decide

theorem digitNumbers_c : CNumbers digitNumbers fun _ x => [Nat.digitChar x] where
  text := by decide
  printf _ x _ := by
    refine ⟨[], [Nat.digitChar x], [], [], rfl, .inl rfl, by simp, ?_, ?_, .inl rfl, .inl rfl⟩
    · intro c hc
      obtain rfl := List.mem_singleton.1 hc
      exact digitChar_digit x x.isLt
    · exact fun h => congrArg (fun c => [c]) (Option.some.inj h)
  exact := by decide
  point s hs _ _ := by
    obtain ⟨sign, ds, frac, exp, rfl, -, hne, -⟩ := hs
    obtain ⟨c, t, ht⟩ := List.exists_cons_of_ne_nil
      (l := sign ++ ds ++ frac ++ exp) (by simp [hne])
    rw [ht]
    rfl

/-- A list with a string to escape, a number and an empty dictionary. -/
def smallHeap : Heap (Fin 10) :=
  [.list [1, 2, 3], .string ['a', '\x22', '\n'], .float 5, .dict [(['k'], 4)], .list []]

theorem tojson_denotes_small : ∃ text v, jsonToJson digitNumbers smallHeap 2 3 0 0 = some text ∧
    JsonText.read text = some v ∧ Denotes digitNumbers smallHeap 3 0 v ∧
    ∀ indent', ∃ text', jsonToJson digitNumbers smallHeap indent' 3 0 0 = some text' ∧
      squeeze false text' = squeeze false text := by
  have hbuilt : Built digitNumbers smallHeap 3 0 := by
    have h4 : Built digitNumbers smallHeap 1 4 := fun b hb => absurd hb (by simp)
    have h3 : Built digitNumbers smallHeap 2 3 := by
      intro e he
      obtain rfl := List.mem_singleton.1 he
      exact h4
    intro b hb
    simp only [List.mem_cons, List.not_mem_nil, or_false] at hb
    rcases hb with rfl | rfl | rfl
    · exact trivial
    · exact rfl
    · exact h3
  exact tojson_denotes digitNumbers_c smallHeap 3 0 hbuilt 2

end Kappai.Jinja
