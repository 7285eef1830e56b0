import Mathlib.Data.List.Basic
import Mathlib.Data.Char
import Mathlib.Data.Nat.Notation
import Mathlib.Tactic.Common

/-! What a JSON text denotes. The reader follows the grammar; a number is kept as its literal, and a
surrogate that has no partner is refused. -/

namespace Kappai

namespace JsonText

inductive Value
  | null
  | bool (b : Bool)
  | number (literal : List Char)
  | string (s : List Char)
  | array (items : List Value)
  | object (members : List (List Char × Value))

def isWs (c : Char) : Bool := c = ' ' || c = '\t' || c = '\n' || c = '\r'

def skipWs (s : List Char) : List Char := s.dropWhile isWs

/-! ### Strings -/

def hexDigit (c : Char) : Option ℕ :=
  if c.isDigit then some (c.toNat - 48)
  else if 'a' ≤ c ∧ c ≤ 'f' then some (c.toNat - 87)
  else if 'A' ≤ c ∧ c ≤ 'F' then some (c.toNat - 55)
  else none

/-- The code unit of four digits. -/
def readUnit : List Char → Option (ℕ × List Char)
  | a :: b :: c :: d :: s =>
    (hexDigit a).bind fun a => (hexDigit b).bind fun b => (hexDigit c).bind fun c =>
      (hexDigit d).map fun d => (4096 * a + 256 * b + 16 * c + d, s)
  | _ => none

def simpleEscape (c : Char) : Option Char :=
  if c = '\x22' ∨ c = '\\' ∨ c = '/' then some c
  else if c = 'b' then some '\x08'
  else if c = 'f' then some '\x0c'
  else if c = 'n' then some '\n'
  else if c = 'r' then some '\r'
  else if c = 't' then some '\t'
  else none

/-- The second half of a pair of surrogates. -/
def readLow (high : ℕ) : List Char → Option (Char × List Char)
  | '\\' :: 'u' :: s => (readUnit s).bind fun r =>
    if 0xDC00 ≤ r.1 ∧ r.1 < 0xE000 then
      some (Char.ofNat (0x10000 + (high - 0xD800) * 0x400 + (r.1 - 0xDC00)), r.2)
    else none
  | _ => none

/-- What follows a backslash. -/
def readEscape : List Char → Option (Char × List Char)
  | [] => none
  | c :: s =>
    if c = 'u' then (readUnit s).bind fun r =>
      if 0xD800 ≤ r.1 ∧ r.1 < 0xDC00 then readLow r.1 r.2
      else if 0xDC00 ≤ r.1 ∧ r.1 < 0xE000 then none
      else some (Char.ofNat r.1, r.2)
    else (simpleEscape c).map fun e => (e, s)

/-- A character of a string; a control character has to be escaped. -/
def readChar : List Char → Option (Char × List Char)
  | [] => none
  | c :: s => if c = '\\' then readEscape s else if c.toNat < 0x20 then none else some (c, s)

/-- The rest of a string, of at most `n` characters with the quote. -/
def readString : ℕ → List Char → Option (List Char × List Char)
  | 0, _ => none
  | n + 1, s =>
    if s.head? = some '\x22' then some ([], s.tail)
    else (readChar s).bind fun r => (readString n r.2).map fun q => (r.1 :: q.1, q.2)

/-! ### Numbers -/

/-- Digits, at least one. -/
def readDigits (s : List Char) : Option (List Char × List Char) :=
  if s.takeWhile Char.isDigit = [] then none
  else some (s.takeWhile Char.isDigit, s.dropWhile Char.isDigit)

/-- A first zero is the only digit. -/
def readInt (s : List Char) : Option (List Char × List Char) :=
  (readDigits s).bind fun r => if r.1.head? = some '0' ∧ r.1 ≠ ['0'] then none else some r

def readFrac (s : List Char) : Option (List Char × List Char) :=
  if s.head? = some '.' then (readDigits s.tail).map fun r => ('.' :: r.1, r.2) else some ([], s)

def readSign (signs s : List Char) : List Char × List Char :=
  match s with
  | c :: s => if c ∈ signs then ([c], s) else ([], c :: s)
  | [] => ([], [])

def readExp : List Char → Option (List Char × List Char)
  | [] => some ([], [])
  | c :: s =>
    if c = 'e' ∨ c = 'E' then
      let sign := readSign ['+', '-'] s
      (readDigits sign.2).map fun r => (c :: (sign.1 ++ r.1), r.2)
    else some ([], c :: s)

def readNumber (s : List Char) : Option (List Char × List Char) :=
  let sign := readSign ['-'] s
  (readInt sign.2).bind fun i => (readFrac i.2).bind fun f => (readExp f.2).map fun e =>
    (sign.1 ++ i.1 ++ f.1 ++ e.1, e.2)

/-! ### Values -/

section Items

variable {α : Type*} (item : List Char → Option (α × List Char)) (close : Char)

/-- At most `n` items with commas between them, and the bracket. -/
def readItems : ℕ → List Char → Option (List α × List Char)
  | 0, _ => none
  | n + 1, s => (item s).bind fun r =>
    let t := skipWs r.2
    if t.head? = some ',' then (readItems n (skipWs t.tail)).map fun q => (r.1 :: q.1, q.2)
    else if t.head? = some close then some ([r.1], t.tail)
    else none

/-- What follows an opening bracket. -/
def readBody (s : List Char) : Option (List α × List Char) :=
  let t := skipWs s
  if t.head? = some close then some ([], t.tail) else readItems item close t.length t

end Items

def readMember (value : List Char → Option (Value × List Char)) :
    List Char → Option ((List Char × Value) × List Char)
  | [] => none
  | c :: s =>
    if c = '\x22' then (readString (s.length + 1) s).bind fun k =>
      let t := skipWs k.2
      if t.head? = some ':' then (value (skipWs t.tail)).map fun r => ((k.1, r.1), r.2) else none
    else none

/-- A value with at most `depth` values inside one another. -/
def readValue : ℕ → List Char → Option (Value × List Char)
  | 0, _ => none
  | _, [] => none
  | depth + 1, c :: s =>
    if c = '\x22' then (readString (s.length + 1) s).map fun r => (.string r.1, r.2)
    else if c = '[' then (readBody (readValue depth) ']' s).map fun r => (.array r.1, r.2)
    else if c = '\x7b' then
      (readBody (readMember (readValue depth)) '\x7d' s).map fun r => (.object r.1, r.2)
    else if ['n', 'u', 'l', 'l'].isPrefixOf (c :: s) then some (.null, s.drop 3)
    else if ['t', 'r', 'u', 'e'].isPrefixOf (c :: s) then some (.bool true, s.drop 3)
    else if ['f', 'a', 'l', 's', 'e'].isPrefixOf (c :: s) then some (.bool false, s.drop 4)
    else (readNumber (c :: s)).map fun r => (.number r.1, r.2)

/-- The value of a whole text. -/
def read (s : List Char) : Option Value :=
  (readValue (s.length + 1) (skipWs s)).bind fun r => if skipWs r.2 = [] then some r.1 else none

/-- The text without the white space outside its strings; `quoted` says whether it begins in one. -/
def squeeze : Bool → List Char → List Char
  | _, [] => []
  | false, c :: s => if isWs c then squeeze false s else c :: squeeze (c = '\x22') s
  | true, '\\' :: c :: s => '\\' :: c :: squeeze true s
  | true, c :: s => c :: squeeze (c ≠ '\x22') s

/-! ### Reading what is written -/

/-- After the text no number goes on. -/
def Ends (rest : List Char) : Prop :=
  ∀ c, rest.head? = some c → c.isDigit = false ∧ c ≠ '.' ∧ c ≠ 'e' ∧ c ≠ 'E'

/-- A text is read as `x`, whatever ends it. -/
def Reads {α : Type*} (item : List Char → Option (α × List Char)) (t : List Char) (x : α) : Prop :=
  (∀ c, t.head? = some c → isWs c = false) ∧ t ≠ [] ∧ ∀ rest, Ends rest → item (t ++ rest) = some (x, rest)

theorem skipWs_append {w s : List Char} (hw : ∀ c ∈ w, isWs c = true) : skipWs (w ++ s) = skipWs s := by
  induction w with
  | nil => rfl
  | cons c w ih =>
    rw [List.cons_append, skipWs, List.dropWhile_cons_of_pos (hw c (by simp))]
    exact ih fun d hd => hw d (by simp [hd])

theorem skipWs_cons {c : Char} {s : List Char} (hc : isWs c = false) : skipWs (c :: s) = c :: s :=
  List.dropWhile_cons_of_neg (by simp [hc])

theorem Reads.skipWs {α : Type*} {item : List Char → Option (α × List Char)} {t : List Char} {x : α}
    (h : Reads item t x) (rest : List Char) : skipWs (t ++ rest) = t ++ rest := by
  obtain ⟨c, t, rfl⟩ := List.exists_cons_of_ne_nil h.2.1
  exact skipWs_cons (h.1 c rfl)

section Items

variable {α : Type*} {item : List Char → Option (α × List Char)} {close : Char} {line space last : List Char}

/-- What comes after an item. -/
def tailText (close : Char) (line space last : List Char) (texts : List (List Char)) : List Char :=
  texts.flatMap (fun t => ',' :: (space ++ line ++ t)) ++ last ++ [close]

theorem ends_close (hclose : close = ']' ∨ close = '\x7d') (rest : List Char) : Ends (close :: rest) := by
  intro c hc
  obtain rfl := Option.some.inj hc
  rcases hclose with rfl | rfl <;> decide

theorem ends_ws {w : List Char} (hw : ∀ c ∈ w, isWs c = true) {rest : List Char} (h : Ends rest) :
    Ends (w ++ rest) := by
  cases w with
  | nil => exact h
  | cons d w =>
    intro c hc
    obtain rfl := Option.some.inj hc
    have hws := hw d (by simp)
    simp only [isWs, Bool.or_eq_true, decide_eq_true_eq] at hws
    rcases hws with ((rfl | rfl) | rfl) | rfl <;> decide

theorem ends_comma (rest : List Char) : Ends (',' :: rest) := by
  intro c hc
  obtain rfl := Option.some.inj hc
  decide

theorem readItems_eq (hclose : close = ']' ∨ close = '\x7d') (hline : ∀ c ∈ line, isWs c = true)
    (hspace : ∀ c ∈ space, isWs c = true) (hlast : ∀ c ∈ last, isWs c = true)
    {t : List Char} {x : α} {texts : List (List Char)} {xs : List α} (hx : Reads item t x)
    (hxs : List.Forall₂ (Reads item) texts xs) {n : ℕ} (hn : texts.length < n) (rest : List Char) :
    readItems item close n (t ++ (tailText close line space last texts ++ rest)) =
      some (x :: xs, rest) := by
  have hnows : isWs close = false := by rcases hclose with rfl | rfl <;> decide
  induction hxs generalizing t x n with
  | nil =>
    obtain ⟨n, rfl⟩ : ∃ m, n = m + 1 := ⟨n - 1, by omega⟩
    have htail : tailText close line space last [] ++ rest = last ++ (close :: rest) := by
      simp [tailText]
    have hcomma : close ≠ ',' := by rcases hclose with rfl | rfl <;> decide
    rw [htail, readItems, hx.2.2 _ (ends_ws hlast (ends_close hclose rest)), Option.bind_some]
    simp only [skipWs_append hlast, skipWs_cons hnows]
    rw [if_neg (by simpa using hcomma), if_pos List.head?_cons]
    rfl
  | @cons t' x' texts xs h' hxs ih =>
    obtain ⟨n, rfl⟩ : ∃ m, n = m + 1 := ⟨n - 1, by omega⟩
    have htail : tailText close line space last (t' :: texts) ++ rest =
        ',' :: (space ++ (line ++ (t' ++ (tailText close line space last texts ++ rest)))) := by
      simp [tailText]
    rw [htail, readItems, hx.2.2 _ (ends_comma _), Option.bind_some]
    simp only [skipWs_cons (show isWs ',' = false by decide), List.head?_cons, List.tail_cons, if_true,
      skipWs_append hspace, skipWs_append hline, h'.skipWs]
    rw [ih h' (by simpa using hn)]
    rfl

theorem length_le_flatMap (texts : List (List Char)) (f : List Char → List Char) :
    texts.length ≤ (texts.flatMap fun t => ',' :: f t).length := by
  induction texts with
  | nil => exact Nat.le_refl 0
  | cons t texts ih =>
    simp only [List.flatMap_cons, List.length_append, List.length_cons]
    omega

/-- A bracket, items on lines of their own or not, and the bracket that closes it. -/
theorem readBody_eq (hclose : close = ']' ∨ close = '\x7d') (hline : ∀ c ∈ line, isWs c = true)
    (hspace : ∀ c ∈ space, isWs c = true) (hlast : ∀ c ∈ last, isWs c = true)
    (hopen : ∀ t x rest, Reads item t x → (t ++ rest).head? ≠ some close)
    {t : List Char} {x : α} {texts : List (List Char)} {xs : List α} (hx : Reads item t x)
    (hxs : List.Forall₂ (Reads item) texts xs) (rest : List Char) :
    readBody item close (line ++ (t ++ (tailText close line space last texts ++ rest))) =
      some (x :: xs, rest) := by
  rw [readBody]
  simp only [skipWs_append hline, hx.skipWs]
  rw [if_neg (hopen t x _ hx)]
  refine readItems_eq hclose hline hspace hlast hx hxs ?_ rest
  have hlen := length_le_flatMap texts fun t => space ++ line ++ t
  simp only [tailText, List.length_append]
  have hpos := List.length_pos_of_ne_nil hx.2.1
  omega

theorem readBody_nil (hclose : close = ']' ∨ close = '\x7d') (rest : List Char) :
    readBody item close (close :: rest) = some ([], rest) := by
  have hnows : isWs close = false := by rcases hclose with rfl | rfl <;> decide
  rw [readBody, skipWs_cons hnows, if_pos List.head?_cons]
  rfl

end Items

/-! ### Digits and numbers -/

theorem takeWhile_digits {ds rest : List Char} (hds : ∀ c ∈ ds, c.isDigit = true)
    (hrest : ∀ c, rest.head? = some c → c.isDigit = false) :
    (ds ++ rest).takeWhile Char.isDigit = ds ∧ (ds ++ rest).dropWhile Char.isDigit = rest := by
  induction ds with
  | nil =>
    cases rest with
    | nil => exact ⟨rfl, rfl⟩
    | cons c rest =>
      have hc := hrest c rfl
      exact ⟨List.takeWhile_cons_of_neg (by simp [hc]), List.dropWhile_cons_of_neg (by simp [hc])⟩
  | cons c ds ih =>
    obtain ⟨htake, hdrop⟩ := ih fun d hd => hds d (by simp [hd])
    have hc := hds c (by simp)
    exact ⟨by rw [List.cons_append, List.takeWhile_cons_of_pos hc, htake],
      by rw [List.cons_append, List.dropWhile_cons_of_pos hc, hdrop]⟩

theorem readDigits_eq {ds rest : List Char} (hne : ds ≠ []) (hds : ∀ c ∈ ds, c.isDigit = true)
    (hrest : ∀ c, rest.head? = some c → c.isDigit = false) :
    readDigits (ds ++ rest) = some (ds, rest) := by
  obtain ⟨htake, hdrop⟩ := takeWhile_digits hds hrest
  rw [readDigits, htake, hdrop, if_neg hne]

/-- The literals of the grammar, from their parts. -/
structure NumberParts (sign ds frac exp : List Char) : Prop where
  sign : sign = [] ∨ sign = ['-']
  ne : ds ≠ []
  digits : ∀ c ∈ ds, c.isDigit = true
  zero : ds.head? = some '0' → ds = ['0']
  frac : frac = [] ∨ ∃ fs, frac = '.' :: fs ∧ fs ≠ [] ∧ ∀ c ∈ fs, c.isDigit = true
  exp : exp = [] ∨ ∃ e s es, exp = e :: (s ++ es) ∧ (e = 'e' ∨ e = 'E') ∧
    (s = [] ∨ s = ['+'] ∨ s = ['-']) ∧ es ≠ [] ∧ ∀ c ∈ es, c.isDigit = true

variable {sign ds frac exp : List Char}

theorem NumberParts.head (h : NumberParts sign ds frac exp) :
    ∃ c t, sign ++ ds ++ frac ++ exp = c :: t ∧ (c = '-' ∨ c.isDigit = true) := by
  obtain ⟨d, ds', rfl⟩ := List.exists_cons_of_ne_nil h.ne
  rcases h.sign with rfl | rfl
  · exact ⟨d, _, rfl, .inr (h.digits d (by simp))⟩
  · exact ⟨'-', _, rfl, .inl rfl⟩

theorem readExp_eq (h : NumberParts sign ds frac exp) {rest : List Char} (hrest : Ends rest) :
    readExp (exp ++ rest) = some (exp, rest) := by
  have hdigit : ∀ c, rest.head? = some c → c.isDigit = false := fun c hc => (hrest c hc).1
  rcases h.exp with rfl | ⟨e, s, es, rfl, he, hs, hne, hes⟩
  · cases rest with
    | nil => rfl
    | cons c rest =>
      obtain ⟨-, -, hce, hcE⟩ := hrest c rfl
      rw [List.nil_append, readExp, if_neg (by simp [hce, hcE])]
  · have hsign : readSign ['+', '-'] (s ++ es ++ rest) = (s, es ++ rest) := by
      obtain ⟨d, es', rfl⟩ := List.exists_cons_of_ne_nil hne
      have hd := hes d (by simp)
      have hplus : d ≠ '+' := fun he => by rw [he] at hd; exact absurd hd (by decide)
      have hminus : d ≠ '-' := fun he => by rw [he] at hd; exact absurd hd (by decide)
      rcases hs with rfl | rfl | rfl
      · exact if_neg (by simp [hplus, hminus])
      · rfl
      · rfl
    rw [List.cons_append, readExp, if_pos he]
    simp only [hsign]
    rw [readDigits_eq hne hes hdigit]
    rfl

theorem readFrac_eq (h : NumberParts sign ds frac exp) {rest : List Char} (hrest : Ends rest) :
    readFrac (frac ++ (exp ++ rest)) = some (frac, exp ++ rest) := by
  have hafter : ∀ c, (exp ++ rest).head? = some c → c.isDigit = false ∧ c ≠ '.' := by
    intro c hc
    rcases h.exp with rfl | ⟨e, s, es, rfl, he, -⟩
    · exact ⟨(hrest c hc).1, (hrest c hc).2.1⟩
    · obtain rfl : e = c := Option.some.inj hc
      rcases he with rfl | rfl <;> decide
  rcases h.frac with rfl | ⟨fs, rfl, hne, hfs⟩
  · rw [readFrac, List.nil_append, if_neg]
    intro hdot
    exact (hafter '.' hdot).2 rfl
  · rw [List.cons_append, readFrac, if_pos List.head?_cons, List.tail_cons,
      readDigits_eq hne hfs fun c hc => (hafter c hc).1]
    rfl

theorem readNumber_eq (h : NumberParts sign ds frac exp) {rest : List Char} (hrest : Ends rest) :
    readNumber (sign ++ ds ++ frac ++ exp ++ rest) = some (sign ++ ds ++ frac ++ exp, rest) := by
  have hafter : ∀ c, (frac ++ (exp ++ rest)).head? = some c → c.isDigit = false := by
    intro c hc
    rcases h.frac with rfl | ⟨fs, rfl, -⟩
    · rcases h.exp with rfl | ⟨e, s, es, rfl, he, -⟩
      · exact (hrest c hc).1
      · obtain rfl : e = c := Option.some.inj hc
        rcases he with rfl | rfl <;> decide
    · obtain rfl : '.' = c := Option.some.inj hc
      decide
  have hsign : readSign ['-'] (sign ++ (ds ++ (frac ++ (exp ++ rest)))) =
      (sign, ds ++ (frac ++ (exp ++ rest))) := by
    obtain ⟨d, ds', rfl⟩ := List.exists_cons_of_ne_nil h.ne
    have hd := h.digits d (by simp)
    have hminus : d ≠ '-' := fun he => by rw [he] at hd; exact absurd hd (by decide)
    rcases h.sign with rfl | rfl
    · exact if_neg (by simpa using hminus)
    · rfl
  have hint : readInt (ds ++ (frac ++ (exp ++ rest))) = some (ds, frac ++ (exp ++ rest)) := by
    rw [readInt, readDigits_eq h.ne h.digits hafter, Option.bind_some, if_neg]
    rintro ⟨h0, hne⟩
    exact hne (h.zero h0)
  simp only [List.append_assoc]
  rw [readNumber]
  simp only [hsign, hint, Option.bind_some, readFrac_eq h hrest, readExp_eq h hrest, Option.map_some,
    List.append_assoc]

theorem reads_number (h : NumberParts sign ds frac exp) (depth : ℕ) :
    Reads (readValue (depth + 1)) (sign ++ ds ++ frac ++ exp) (.number (sign ++ ds ++ frac ++ exp)) := by
  obtain ⟨c, t, htext, hc⟩ := h.head
  have hother : ∀ d : Char, d ≠ '-' → d.isDigit = false → c ≠ d := by
    rintro d hminus hdigit rfl
    rcases hc with rfl | hc
    · exact hminus rfl
    · rw [hc] at hdigit
      exact absurd hdigit (by decide)
  refine ⟨fun d hd => ?_, by rw [htext]; simp, fun rest hrest => ?_⟩
  · rw [htext] at hd
    obtain rfl : c = d := Option.some.inj hd
    have hsp := hother ' ' (by decide) (by decide)
    have htab := hother '\t' (by decide) (by decide)
    have hnl := hother '\n' (by decide) (by decide)
    have hcr := hother '\r' (by decide) (by decide)
    simp [isWs, hsp, htab, hnl, hcr]
  · have hread := readNumber_eq h hrest
    have hn := hother 'n' (by decide) (by decide)
    have ht := hother 't' (by decide) (by decide)
    have hf := hother 'f' (by decide) (by decide)
    rw [htext] at hread ⊢
    rw [List.cons_append] at hread ⊢
    rw [readValue, if_neg (hother _ (by decide) (by decide)), if_neg (hother _ (by decide) (by decide)),
      if_neg (hother _ (by decide) (by decide)), if_neg (by simp [List.isPrefixOf, Ne.symm hn]),
      if_neg (by simp [List.isPrefixOf, Ne.symm ht]), if_neg (by simp [List.isPrefixOf, Ne.symm hf]), hread]
    rfl

theorem reads_word (depth : ℕ) : Reads (readValue (depth + 1)) ['n', 'u', 'l', 'l'] .null ∧
    Reads (readValue (depth + 1)) ['t', 'r', 'u', 'e'] (.bool true) ∧
    Reads (readValue (depth + 1)) ['f', 'a', 'l', 's', 'e'] (.bool false) := by
  refine ⟨⟨?_, by decide, fun rest _ => rfl⟩, ⟨?_, by decide, fun rest _ => rfl⟩,
    ⟨?_, by decide, fun rest _ => rfl⟩⟩ <;>
  · intro c hc
    obtain rfl := Option.some.inj hc
    decide

theorem reads_null (depth : ℕ) : Reads (readValue (depth + 1)) ['n', 'u', 'l', 'l'] .null :=
  (reads_word depth).1

/-- A body that is read as `x` up to its quote. -/
theorem reads_string {body x : List Char} (hread : ∀ n rest, body.length < n →
    readString n (body ++ '\x22' :: rest) = some (x, rest)) (depth : ℕ) :
    Reads (readValue (depth + 1)) ('\x22' :: (body ++ ['\x22'])) (.string x) := by
  refine ⟨fun c hc => ?_, by simp, fun rest _ => ?_⟩
  · obtain rfl := Option.some.inj hc
    decide
  · have hbody : '\x22' :: (body ++ ['\x22']) ++ rest = '\x22' :: (body ++ '\x22' :: rest) := by simp
    rw [hbody, readValue, if_pos rfl, hread _ _ (by rw [List.length_append, List.length_cons]; omega)]
    rfl

theorem reads_member {value : List Char → Option (Value × List Char)} {body key t space : List Char}
    {v : Value} (hread : ∀ n rest, body.length < n → readString n (body ++ '\x22' :: rest) = some (key, rest))
    (hspace : ∀ c ∈ space, isWs c = true) (hv : Reads value t v) :
    Reads (readMember value) ('\x22' :: (body ++ ['\x22']) ++ ':' :: space ++ t) (key, v) := by
  refine ⟨fun c hc => ?_, by simp, fun rest hrest => ?_⟩
  · obtain rfl := Option.some.inj hc
    decide
  · have htext : '\x22' :: (body ++ ['\x22']) ++ ':' :: space ++ t ++ rest =
        '\x22' :: (body ++ '\x22' :: (':' :: (space ++ (t ++ rest)))) := by simp
    rw [htext, readMember, if_pos rfl, hread _ _ (by rw [List.length_append, List.length_cons]; omega),
      Option.bind_some]
    simp only [skipWs_cons (show isWs ':' = false by decide)]
    rw [if_pos List.head?_cons, List.tail_cons, skipWs_append hspace, hv.skipWs, hv.2.2 rest hrest]
    rfl

/-- The closing brackets begin no value. -/
theorem Reads.ne_close {depth : ℕ} {t : List Char} {x : Value} (h : Reads (readValue depth) t x)
    {close : Char} (hclose : close = ']' ∨ close = '\x7d') (rest : List Char) :
    (t ++ rest).head? ≠ some close := by
  obtain ⟨hws, hne, hread⟩ := h
  obtain ⟨c, t, rfl⟩ := List.exists_cons_of_ne_nil hne
  intro hc
  obtain rfl : c = close := Option.some.inj hc
  have hnone := hread [] (fun c hc => by simp at hc)
  rw [List.append_nil] at hnone
  cases depth with
  | zero => rw [readValue] at hnone; cases hnone
  | succ depth =>
    rcases hclose with rfl | rfl
    · rw [readValue, if_neg (by decide), if_neg (by decide), if_neg (by decide),
        if_neg (by simp [List.isPrefixOf]), if_neg (by simp [List.isPrefixOf]),
        if_neg (by simp [List.isPrefixOf])] at hnone
      simp [readNumber, readSign, readInt, readDigits] at hnone
    · rw [readValue, if_neg (by decide), if_neg (by decide), if_neg (by decide),
        if_neg (by simp [List.isPrefixOf]), if_neg (by simp [List.isPrefixOf]),
        if_neg (by simp [List.isPrefixOf])] at hnone
      simp [readNumber, readSign, readInt, readDigits] at hnone

theorem Reads.member_ne_close {value : List Char → Option (Value × List Char)} {t : List Char}
    {x : List Char × Value} (h : Reads (readMember value) t x) (rest : List Char) :
    (t ++ rest).head? ≠ some '\x7d' := by
  obtain ⟨-, hne, hread⟩ := h
  obtain ⟨c, t, rfl⟩ := List.exists_cons_of_ne_nil hne
  intro hc
  obtain rfl : c = '\x7d' := Option.some.inj hc
  have hnone := hread [] (fun c hc => by simp at hc)
  rw [List.append_nil, readMember, if_neg (by decide)] at hnone
  cases hnone

section Brackets

variable {line space last : List Char} (hline : ∀ c ∈ line, isWs c = true)
  (hspace : ∀ c ∈ space, isWs c = true) (hlast : ∀ c ∈ last, isWs c = true)

include hline hspace hlast

theorem reads_array {depth : ℕ} {t : List Char} {x : Value} {texts : List (List Char)} {xs : List Value}
    (hx : Reads (readValue depth) t x) (hxs : List.Forall₂ (Reads (readValue depth)) texts xs) :
    Reads (readValue (depth + 1)) ('[' :: (line ++ (t ++ tailText ']' line space last texts)))
      (.array (x :: xs)) := by
  refine ⟨fun c hc => ?_, by simp, fun rest _ => ?_⟩
  · obtain rfl := Option.some.inj hc
    decide
  · have hbody := readBody_eq (.inl rfl) hline hspace hlast
      (fun _ _ rest h => h.ne_close (.inl rfl) rest) hx hxs rest
    have htext : '[' :: (line ++ (t ++ tailText ']' line space last texts)) ++ rest =
        '[' :: (line ++ (t ++ (tailText ']' line space last texts ++ rest))) := by simp
    rw [htext, readValue, if_neg (by decide), if_pos rfl, hbody]
    rfl

theorem reads_object {depth : ℕ} {t : List Char} {x : List Char × Value} {texts : List (List Char)}
    {xs : List (List Char × Value)} (hx : Reads (readMember (readValue depth)) t x)
    (hxs : List.Forall₂ (Reads (readMember (readValue depth))) texts xs) :
    Reads (readValue (depth + 1)) ('\x7b' :: (line ++ (t ++ tailText '\x7d' line space last texts)))
      (.object (x :: xs)) := by
  refine ⟨fun c hc => ?_, by simp, fun rest _ => ?_⟩
  · obtain rfl := Option.some.inj hc
    decide
  · have hbody := readBody_eq (.inr rfl) hline hspace hlast
      (fun _ _ rest h => h.member_ne_close rest) hx hxs rest
    have htext : '\x7b' :: (line ++ (t ++ tailText '\x7d' line space last texts)) ++ rest =
        '\x7b' :: (line ++ (t ++ (tailText '\x7d' line space last texts ++ rest))) := by simp
    rw [htext, readValue, if_neg (by decide), if_neg (by decide), if_pos rfl, hbody]
    rfl

end Brackets

theorem reads_empty (depth : ℕ) : Reads (readValue (depth + 1)) ['[', ']'] (.array []) ∧
    Reads (readValue (depth + 1)) ['\x7b', '\x7d'] (.object []) := by
  constructor
  · refine ⟨fun c hc => ?_, by simp, fun rest _ => ?_⟩
    · obtain rfl := Option.some.inj hc
      decide
    · change readValue (depth + 1) ('[' :: ']' :: rest) = _
      rw [readValue, if_neg (by decide), if_pos rfl, readBody_nil (.inl rfl)]
      rfl
  · refine ⟨fun c hc => ?_, by simp, fun rest _ => ?_⟩
    · obtain rfl := Option.some.inj hc
      decide
    · change readValue (depth + 1) ('\x7b' :: '\x7d' :: rest) = _
      rw [readValue, if_neg (by decide), if_neg (by decide), if_pos rfl, readBody_nil (.inr rfl)]
      rfl

theorem read_eq {t : List Char} {v : Value} (h : Reads (readValue (t.length + 1)) t v) :
    read t = some v := by
  have hskip := h.skipWs []
  have hread := h.2.2 [] fun c hc => by simp at hc
  rw [List.append_nil] at hskip hread
  rw [read, hskip, hread]
  rfl

example : read ['[', ' ', '1', ' ', ',', '2', '}'] = none := by decide +kernel

/-! ### White space outside strings -/

/-- After the text a reader is outside of strings. -/
def Closed (t : List Char) : Prop :=
  ∀ rest, squeeze false (t ++ rest) = squeeze false t ++ squeeze false rest

theorem Closed.append {s t : List Char} (hs : Closed s) (ht : Closed t) : Closed (s ++ t) := by
  intro rest
  rw [List.append_assoc, hs, ht, hs, List.append_assoc]

theorem closed_nil : Closed [] := fun _ => rfl

theorem squeeze_nil (quoted : Bool) : squeeze quoted [] = [] := by
  cases quoted <;> rfl

theorem squeeze_cons (c : Char) (s : List Char) :
    squeeze false (c :: s) = if isWs c then squeeze false s else c :: squeeze (c = '\x22') s := rfl

theorem closed_char {c : Char} (hc : c ≠ '\x22') : Closed [c] := by
  intro rest
  simp only [List.cons_append, List.nil_append, squeeze_cons, squeeze_nil, hc, decide_false]
  split_ifs <;> rfl

theorem closed_plain {t : List Char} (h : '\x22' ∉ t) : Closed t := by
  induction t with
  | nil => exact closed_nil
  | cons c t ih =>
    simp only [List.mem_cons, not_or] at h
    exact (closed_char (Ne.symm h.1)).append (ih h.2)

theorem squeeze_ws {w : List Char} (hw : ∀ c ∈ w, isWs c = true) : squeeze false w = [] := by
  induction w with
  | nil => rfl
  | cons c w ih =>
    rw [squeeze_cons, if_pos (hw c (by simp))]
    exact ih fun d hd => hw d (by simp [hd])

theorem closed_ws {w : List Char} (hw : ∀ c ∈ w, isWs c = true) : Closed w :=
  closed_plain fun hmem => absurd (hw _ hmem) (by decide)

section Brackets

variable {line space last : List Char} (hline : ∀ c ∈ line, isWs c = true)
  (hspace : ∀ c ∈ space, isWs c = true) (hlast : ∀ c ∈ last, isWs c = true)

include hline hspace hlast

theorem closed_tail {close : Char} (hclose : close = ']' ∨ close = '\x7d') {texts : List (List Char)}
    (h : ∀ t ∈ texts, Closed t) : Closed (tailText close line space last texts) ∧
      squeeze false (tailText close line space last texts) =
        texts.flatMap (fun t => ',' :: squeeze false t) ++ [close] := by
  have hquote : close ≠ '\x22' := by rcases hclose with rfl | rfl <;> decide
  have hws : squeeze false [close] = [close] := by rcases hclose with rfl | rfl <;> rfl
  induction texts with
  | nil =>
    have htail : tailText close line space last [] = last ++ [close] := by simp [tailText]
    rw [htail]
    refine ⟨(closed_ws hlast).append (closed_char hquote), ?_⟩
    rw [closed_ws hlast, squeeze_ws hlast, hws]
    rfl
  | cons t texts ih =>
    obtain ⟨hclosed, hsqueeze⟩ := ih fun t ht => h t (by simp [ht])
    have htail : tailText close line space last (t :: texts) =
        [','] ++ (space ++ (line ++ (t ++ tailText close line space last texts))) := by simp [tailText]
    have hcomma : Closed [','] := closed_char (by decide)
    have ht := h t (by simp)
    rw [htail]
    refine ⟨hcomma.append ((closed_ws hspace).append ((closed_ws hline).append (ht.append hclosed))), ?_⟩
    rw [hcomma, closed_ws hspace, closed_ws hline, ht, hsqueeze, squeeze_ws hspace, squeeze_ws hline]
    simp [squeeze_cons, squeeze_nil, isWs]

/-- The white space between items is of no account. -/
theorem closed_brackets {start close : Char} (hstart : start = '[' ∨ start = '\x7b')
    (hclose : close = ']' ∨ close = '\x7d') {t : List Char} {texts : List (List Char)} (ht : Closed t)
    (h : ∀ t ∈ texts, Closed t) : Closed (start :: (line ++ (t ++ tailText close line space last texts))) ∧
      squeeze false (start :: (line ++ (t ++ tailText close line space last texts))) =
        start :: (squeeze false t ++ (texts.flatMap (fun t => ',' :: squeeze false t) ++ [close])) := by
  obtain ⟨hclosed, hsqueeze⟩ := closed_tail hline hspace hlast hclose h
  have hone : Closed [start] := closed_char (by rcases hstart with rfl | rfl <;> decide)
  have hws : squeeze false [start] = [start] := by rcases hstart with rfl | rfl <;> rfl
  have htext : start :: (line ++ (t ++ tailText close line space last texts)) =
      [start] ++ (line ++ (t ++ tailText close line space last texts)) := rfl
  rw [htext]
  refine ⟨hone.append ((closed_ws hline).append (ht.append hclosed)), ?_⟩
  rw [hone, closed_ws hline, ht, hsqueeze, squeeze_ws hline, hws]
  rfl

end Brackets

/-- A string in whose body no quote stands open is kept as it is. -/
theorem squeeze_string {body : List Char}
    (h : ∀ rest, squeeze true (body ++ '\x22' :: rest) = body ++ '\x22' :: squeeze false rest) :
    Closed ('\x22' :: (body ++ ['\x22'])) ∧
      squeeze false ('\x22' :: (body ++ ['\x22'])) = '\x22' :: (body ++ ['\x22']) := by
  have hall : ∀ rest, squeeze false ('\x22' :: (body ++ ['\x22']) ++ rest) =
      '\x22' :: (body ++ '\x22' :: squeeze false rest) := by
    intro rest
    have htext : '\x22' :: (body ++ ['\x22']) ++ rest = '\x22' :: (body ++ '\x22' :: rest) := by simp
    rw [htext, squeeze_cons, if_neg (by decide)]
    exact congrArg ('\x22' :: ·) (h rest)
  have hself : squeeze false ('\x22' :: (body ++ ['\x22'])) = '\x22' :: (body ++ ['\x22']) := by
    have := hall []
    rwa [List.append_nil] at this
  refine ⟨fun rest => ?_, hself⟩
  rw [hall, hself]
  simp

end JsonText

end Kappai
