import Kappai.Spec.Pretoken
import Mathlib.Algebra.Order.Group.Nat
import Mathlib.Tactic.Common

/-! Pretokens go on by at least one byte and leave none out. Where the bytes after a lead byte are those
of its character, the pretokens by characters end between characters, and digits stand alone. -/

namespace Kappai

namespace Pretoken

variable {s : Text} {i j : ℕ}

theorem has_iff {p : UInt8 → Bool} : has p s j = true ↔ j < s.length ∧ p (byteAt s j) = true := by
  simp [has]

theorem hasCp_iff {p : UInt8 → ℕ → Bool} :
    hasCp s p j = true ↔ j < s.length ∧ p (byteAt s j) (cpAt s j).1 = true := by
  simp [hasCp]

theorem skip_eq (p : UInt8 → Bool) (s : Text) (j : ℕ) :
    skip p s j = if has p s j then skip p s (j + 1) else j := by
  by_cases hj : j < s.length
  · have hdrop : s.drop j = byteAt s j :: s.drop (j + 1) := by
      rw [byteAt, List.getD_eq_getElem?_getD, List.getElem?_eq_getElem hj]
      exact List.drop_eq_getElem_cons hj
    by_cases hp : p (byteAt s j) = true
    · rw [if_pos (has_iff.mpr ⟨hj, hp⟩), skip, hdrop, List.takeWhile_cons_of_pos hp, List.length_cons,
        skip, Nat.add_right_comm, Nat.add_assoc]
    · rw [if_neg fun h => hp (has_iff.mp h).2, skip, hdrop, List.takeWhile_cons_of_neg hp]
      rfl
  · rw [if_neg fun h => hj (has_iff.mp h).1, skip, List.drop_eq_nil_of_le (Nat.le_of_not_lt hj)]
    rfl

/-- What every step over a byte with `p` keeps is true where the run of such bytes ends. -/
theorem skip_induct {p : UInt8 → Bool} {P : ℕ → Prop} (hstep : ∀ k, has p s k = true → P k → P (k + 1))
    (h : P j) : P (skip p s j) := by
  induction hn : s.length - j generalizing j with
  | zero =>
    rw [skip_eq, if_neg fun hhas => by have := (has_iff.mp hhas).1; omega]
    exact h
  | succ n ih =>
    rw [skip_eq]
    split_ifs with hhas
    · exact ih (hstep j hhas h) (by omega)
    · exact h

theorem skip_stop (p : UInt8 → Bool) (s : Text) (j : ℕ) : has p s (skip p s j) = false := by
  induction hn : s.length - j generalizing j with
  | zero =>
    have hno : has p s j = false := by
      rw [has, decide_eq_false (by omega), Bool.false_and]
    rw [skip_eq, if_neg (by simp [hno]), hno]
  | succ n ih =>
    rw [skip_eq]
    split_ifs with hhas
    · exact ih (j + 1) (by omega)
    · exact Bool.eq_false_iff.mpr hhas

theorem le_skip (p : UInt8 → Bool) (s : Text) (j : ℕ) : j ≤ skip p s j := Nat.le_add_right _ _

theorem skip_le (p : UInt8 → Bool) (hj : j ≤ s.length) : skip p s j ≤ s.length :=
  skip_induct (P := (· ≤ s.length)) (fun _ hk _ => (has_iff.mp hk).1) hj

theorem lt_skip {p : UInt8 → Bool} (h : has p s j = true) : j < skip p s j := by
  rw [skip_eq, if_pos h]
  exact le_skip p s (j + 1)

/-- The bytes passed over. -/
theorem of_lt_skip {p : UInt8 → Bool} {k : ℕ} (hk : j ≤ k) (hlt : k < skip p s j) :
    p (byteAt s k) = true := by
  have h := skip_induct (s := s) (p := p) (j := j)
    (P := fun e => ∀ k, j ≤ k → k < e → p (byteAt s k) = true)
    (fun e he ih k hk hlt => by
      rcases Nat.lt_or_eq_of_le (Nat.le_of_lt_succ hlt) with h | rfl
      · exact ih k hk h
      · exact (has_iff.mp he).2)
    (fun k hk hlt => by omega)
  exact h k hk hlt

theorem toInt_le (n : ℕ) : toInt n ≤ n := by
  rw [toInt]
  omega

theorem toInt_eq {n : ℕ} (h : n < 2 ^ 31) : toInt n = n := by
  rw [toInt]
  omega

theorem leadLength_pos (c : UInt8) : 0 < leadLength c := by
  rw [leadLength]
  split_ifs <;> decide

/-- A fact about each of the 256 bytes. -/
theorem forall_byte {P : UInt8 → Prop} (h : ∀ n < 256, P (UInt8.ofNat n)) (c : UInt8) : P c := by
  have := h c.toNat c.toNat_lt
  rwa [UInt8.ofNat_toNat] at this

/-- What is used of the 256 bytes, checked at once: the lead bytes, what follows one, and the classes. -/
theorem byte_checks (c : UInt8) :
    (((c &&& 0xE0 == 0xC0) = true → (c &&& 0xF0 == 0xE0) = false ∧ (c &&& 0xF8 == 0xF0) = false) ∧
      ((c &&& 0xF0 == 0xE0) = true → (c &&& 0xF8 == 0xF0) = false)) ∧
    (c < 0x80 → leadLength c = 1 ∧ isContinuation c = false) ∧
    (¬c < 0x80 → isDigit c = false ∧ (c == 32) = false ∧ isSpace c = false) ∧
    (isContinuation c = true → leadLength c = 1 ∧ isDigit c = false) ∧
    (isSpace c = true → c < 0x80 ∧ isDigit c = false) ∧ (isNewline c = true → isSpace c = true) ∧
    isDigit c = cpIsDigit c.toNat := by
  revert c
  exact forall_byte (by decide +kernel)

theorem leadLength_ascii {c : UInt8} (h : c < 0x80) : leadLength c = 1 := ((byte_checks c).2.1 h).1

/-- The lead bytes of two, three and four bytes are different. -/
theorem lead_apart (c : UInt8) :
    ((c &&& 0xE0 == 0xC0) = true → (c &&& 0xF0 == 0xE0) = false ∧ (c &&& 0xF8 == 0xF0) = false) ∧
    ((c &&& 0xF0 == 0xE0) = true → (c &&& 0xF8 == 0xF0) = false) := (byte_checks c).1

theorem ascii_not_continuation {c : UInt8} (h : c < 0x80) : isContinuation c = false :=
  ((byte_checks c).2.1 h).2

theorem wide_byte {c : UInt8} (h : ¬c < 0x80) :
    isDigit c = false ∧ (c == 32) = false ∧ isSpace c = false := (byte_checks c).2.2.1 h

theorem continuation_byte {c : UInt8} (h : isContinuation c = true) :
    leadLength c = 1 ∧ isDigit c = false := (byte_checks c).2.2.2.1 h

theorem space_ascii {c : UInt8} (h : isSpace c = true) : c < 0x80 ∧ isDigit c = false :=
  (byte_checks c).2.2.2.2.1 h

theorem newline_space {c : UInt8} (h : isNewline c = true) : isSpace c = true :=
  (byte_checks c).2.2.2.2.2.1 h

theorem isDigit_eq (c : UInt8) : isDigit c = cpIsDigit c.toNat := (byte_checks c).2.2.2.2.2.2

example : leadLength 0xE2 = 3 ∧ isContinuation 0x96 = true ∧ isContinuation 0x41 = false := by decide +kernel

theorem digit_ascii {c : UInt8} (h : isDigit c = true) : c < 0x80 := by
  by_contra hwide
  rw [(wide_byte hwide).1] at h
  cases h

/-- A character is taken whole where there is room for it, and else one byte of it. -/
theorem cpAt_snd (s : Text) (j : ℕ) :
    (cpAt s j).2 = if (leadLength (byteAt s j) : ℤ) ≤ toInt (s.length - j) then
      leadLength (byteAt s j) else 1 := by
  have h0 : byteAt (s.drop j) 0 = byteAt s j := by simp [byteAt]
  have hlead := leadLength_pos (byteAt s j)
  obtain ⟨htwo, hthree⟩ := lead_apart (byteAt s j)
  rw [cpAt, utf8ToCp, h0]
  simp only
  generalize toInt (s.length - j) = room
  by_cases hroom : room ≤ 0
  · rw [if_pos hroom, if_neg (Nat.lt_irrefl 0), if_neg (by omega)]
  · rw [if_neg hroom]
    by_cases hascii : byteAt s j < 0x80
    · rw [if_pos hascii, if_pos Nat.one_pos, leadLength_ascii hascii, if_pos (by omega)]
    · rw [if_neg hascii, leadLength]
      cases h2 : byteAt s j &&& 0xE0 == 0xC0 with
      | true =>
        obtain ⟨h3, h4⟩ := htwo h2
        by_cases hfits : room ≥ 2
        · simp [hfits]
        · simp [h3, h4, hfits]
      | false =>
        cases h3 : byteAt s j &&& 0xF0 == 0xE0 with
        | true =>
          have h4 := hthree h3
          by_cases hfits : room ≥ 3
          · simp [hfits]
          · simp [h4, hfits]
        | false =>
          cases h4 : byteAt s j &&& 0xF8 == 0xF0 with
          | true =>
            by_cases hfits : room ≥ 4
            · simp [hfits]
            · simp [hfits]
          | false => simp

theorem cpAt_fst_of_read {x : ℕ × ℕ} (hx : utf8ToCp (s.drop j) (toInt (s.length - j)) = x) :
    (cpAt s j).1 = if 0 < x.1 then x.2 else (byteAt s j).toNat := by
  rw [cpAt, hx]
  split_ifs <;> rfl

theorem cpAt_fst (h : (cpAt s j).2 = 1) : (cpAt s j).1 = (byteAt s j).toNat := by
  have h0 : byteAt (s.drop j) 0 = byteAt s j := by simp [byteAt]
  rw [cpAt, utf8ToCp, h0] at h ⊢
  generalize toInt (s.length - j) = room at h ⊢
  simp only at h ⊢
  split_ifs at h ⊢ <;> first | rfl | omega

theorem cpAt_pos (s : Text) (j : ℕ) : 0 < (cpAt s j).2 := by
  rw [cpAt_snd]
  split_ifs
  · exact leadLength_pos _
  · exact Nat.one_pos

theorem add_cpAt_le (hj : j < s.length) : j + (cpAt s j).2 ≤ s.length := by
  have := toInt_le (s.length - j)
  rw [cpAt_snd]
  split_ifs with h
  · omega
  · omega

theorem cpAt_ascii (h : byteAt s j < 0x80) : (cpAt s j).2 = 1 := by
  rw [cpAt_snd, leadLength_ascii h]
  exact ite_self _

theorem skipCps_induct {p : UInt8 → ℕ → Bool} {P : ℕ → Prop}
    (hstep : ∀ k, hasCp s p k = true → P k → P (k + (cpAt s k).2)) (fuel : ℕ) (h : P j) :
    P (skipCps s p fuel j) := by
  induction fuel generalizing j with
  | zero => exact h
  | succ fuel ih =>
    rw [skipCps]
    split_ifs with hhas
    · exact ih (hstep j hhas h)
    · exact h

theorem le_skipCps (p : UInt8 → ℕ → Bool) (fuel : ℕ) : j ≤ skipCps s p fuel j :=
  skipCps_induct (P := (j ≤ ·)) (fun _ _ hk => Nat.le_trans hk (Nat.le_add_right _ _)) fuel (Nat.le_refl j)

theorem skipCps_le (p : UInt8 → ℕ → Bool) (fuel : ℕ) (hj : j ≤ s.length) :
    skipCps s p fuel j ≤ s.length :=
  skipCps_induct (P := (· ≤ s.length)) (fun _ hk _ => add_cpAt_le (hasCp_iff.mp hk).1) fuel hj

theorem lt_skipCps {p : UInt8 → ℕ → Bool} {fuel : ℕ} (h : hasCp s p j = true) (hfuel : 0 < fuel) :
    j < skipCps s p fuel j := by
  obtain ⟨fuel, rfl⟩ := Nat.exists_eq_succ_of_ne_zero (Nat.pos_iff_ne_zero.mp hfuel)
  rw [Nat.succ_eq_add_one, skipCps, if_pos h]
  exact Nat.lt_of_lt_of_le (Nat.lt_add_of_pos_right (cpAt_pos s j)) (le_skipCps p fuel)

/-- The loop ends at a character without `p` or at the end of the text. -/
theorem skipCps_stop (p : UInt8 → ℕ → Bool) (fuel : ℕ) (hfuel : s.length - j ≤ fuel) :
    hasCp s p (skipCps s p fuel j) = false := by
  induction fuel generalizing j with
  | zero => rw [skipCps, hasCp, decide_eq_false (by omega), Bool.false_and]
  | succ fuel ih =>
    rw [skipCps]
    split_ifs with hhas
    · have := cpAt_pos s j
      exact ih (by omega)
    · exact Bool.eq_false_iff.mpr hhas

section Utf8

/-- A byte of six bits of a code point. -/
theorem low_byte (x : ℕ) : isContinuation (UInt8.ofNat (x % 64 + 128)) = true ∧
    (UInt8.ofNat (x % 64 + 128) &&& 0x3F).toNat = x % 64 := by
  have key : ∀ n < 64, isContinuation (UInt8.ofNat (n + 128)) = true ∧
      (UInt8.ofNat (n + 128) &&& 0x3F).toNat = n := by
    decide +kernel
  exact key _ (Nat.mod_lt _ (by decide))

theorem isContinuation_low (x : ℕ) : isContinuation (UInt8.ofNat (x % 64 + 128)) = true :=
  (low_byte x).1

/-- The first bytes of the characters of one, two, three and four bytes. -/
theorem lead_byte :
    (∀ n < 128, leadLength (UInt8.ofNat n) = 1 ∧ isContinuation (UInt8.ofNat n) = false) ∧
    (∀ n < 32, (leadLength (UInt8.ofNat (n + 192)) = 2 ∧
        isContinuation (UInt8.ofNat (n + 192)) = false) ∧ ¬UInt8.ofNat (n + 192) < 0x80 ∧
      (UInt8.ofNat (n + 192) &&& 0xE0 == 0xC0) = true ∧
      (UInt8.ofNat (n + 192) &&& 0x1F).toNat = n) ∧
    (∀ n < 16, (leadLength (UInt8.ofNat (n + 224)) = 3 ∧
        isContinuation (UInt8.ofNat (n + 224)) = false) ∧ ¬UInt8.ofNat (n + 224) < 0x80 ∧
      (UInt8.ofNat (n + 224) &&& 0xE0 == 0xC0) = false ∧
      (UInt8.ofNat (n + 224) &&& 0xF0 == 0xE0) = true ∧
      (UInt8.ofNat (n + 224) &&& 0x0F).toNat = n) ∧
    ∀ n < 8, (leadLength (UInt8.ofNat (n + 240)) = 4 ∧
        isContinuation (UInt8.ofNat (n + 240)) = false) ∧ ¬UInt8.ofNat (n + 240) < 0x80 ∧
      (UInt8.ofNat (n + 240) &&& 0xE0 == 0xC0) = false ∧
      (UInt8.ofNat (n + 240) &&& 0xF0 == 0xE0) = false ∧
      (UInt8.ofNat (n + 240) &&& 0xF8 == 0xF0) = true ∧
      (UInt8.ofNat (n + 240) &&& 0x07).toNat = n := by
  decide +kernel

/-- The bytes of a character, from its code point. -/
theorem encode_cases (ch : Char) :
    ch.val.toNat < 0x80 ∧ String.utf8EncodeChar ch = [UInt8.ofNat ch.val.toNat] ∨
    0x80 ≤ ch.val.toNat ∧ String.utf8EncodeChar ch =
      [UInt8.ofNat (ch.val.toNat / 64 % 32 + 192), UInt8.ofNat (ch.val.toNat % 64 + 128)] ∧
      ch.val.toNat < 0x800 ∨
    0x800 ≤ ch.val.toNat ∧ String.utf8EncodeChar ch =
      [UInt8.ofNat (ch.val.toNat / 4096 % 16 + 224), UInt8.ofNat (ch.val.toNat / 64 % 64 + 128),
        UInt8.ofNat (ch.val.toNat % 64 + 128)] ∧ ch.val.toNat < 0x10000 ∨
    0x10000 ≤ ch.val.toNat ∧ String.utf8EncodeChar ch =
      [UInt8.ofNat (ch.val.toNat / 262144 % 8 + 240), UInt8.ofNat (ch.val.toNat / 4096 % 64 + 128),
        UInt8.ofNat (ch.val.toNat / 64 % 64 + 128), UInt8.ofNat (ch.val.toNat % 64 + 128)] ∧
      ch.val.toNat < 0x110000 := by
  have htop : ch.val.toNat < 0x110000 := by
    rcases ch.valid with h | h
    · exact Nat.lt_trans h (by decide)
    · exact h.2
  rw [String.utf8EncodeChar]
  split_ifs with h1 h2 h3
  · exact .inl ⟨by omega, rfl⟩
  · exact .inr (.inl ⟨by omega, rfl, by omega⟩)
  · exact .inr (.inr (.inl ⟨by omega, rfl, by omega⟩))
  · exact .inr (.inr (.inr ⟨by omega, rfl, htop⟩))

/-- A character is a lead byte that knows its length, then continuation bytes. -/
theorem encode_spec (ch : Char) : ∃ c rest, String.utf8EncodeChar ch = c :: rest ∧
    rest.length + 1 = ch.utf8Size ∧ leadLength c = ch.utf8Size ∧ isContinuation c = false ∧
    ∀ b ∈ rest, isContinuation b = true := by
  rw [← String.length_utf8EncodeChar ch]
  rcases encode_cases ch with ⟨hv, henc⟩ | ⟨-, henc, -⟩ | ⟨-, henc, -⟩ | ⟨-, henc, -⟩
  · have hlead := lead_byte.1 _ hv
    rw [henc]
    exact ⟨_, _, rfl, rfl, hlead.1, hlead.2, List.forall_mem_nil _⟩
  · have hlead := (lead_byte.2.1 (ch.val.toNat / 64 % 32) (Nat.mod_lt _ (by decide))).1
    rw [henc]
    exact ⟨_, _, rfl, rfl, hlead.1, hlead.2, List.forall_mem_singleton.mpr (isContinuation_low _)⟩
  · have hlead := (lead_byte.2.2.1 (ch.val.toNat / 4096 % 16) (Nat.mod_lt _ (by decide))).1
    rw [henc]
    exact ⟨_, _, rfl, rfl, hlead.1, hlead.2, List.forall_mem_cons.mpr ⟨isContinuation_low _,
      List.forall_mem_singleton.mpr (isContinuation_low _)⟩⟩
  · have hlead := (lead_byte.2.2.2 (ch.val.toNat / 262144 % 8) (Nat.mod_lt _ (by decide))).1
    rw [henc]
    exact ⟨_, _, rfl, rfl, hlead.1, hlead.2, List.forall_mem_cons.mpr ⟨isContinuation_low _,
      List.forall_mem_cons.mpr ⟨isContinuation_low _,
        List.forall_mem_singleton.mpr (isContinuation_low _)⟩⟩⟩

/-- The bytes of the character that is written at a place. -/
structure CharBytes (s : Text) (a n : ℕ) : Prop where
  room : a + n ≤ s.length
  lead : leadLength (byteAt s a) = n
  start : isContinuation (byteAt s a) = false
  rest : ∀ k, 0 < k → k < n → isContinuation (byteAt s (a + k)) = true

theorem charBytes {a : ℕ} {ch : Char} (h : String.utf8EncodeChar ch <+: s.drop a) :
    CharBytes s a ch.utf8Size := by
  obtain ⟨c, rest, henc, hlen, hlead, hstart, hrest⟩ := encode_spec ch
  have hbyte : ∀ k, k < ch.utf8Size → (c :: rest)[k]? = some (byteAt s (a + k)) := by
    intro k hk
    obtain ⟨more, hmore⟩ := h
    rw [henc] at hmore
    have hget : (c :: rest)[k]? = s[a + k]? := by
      rw [← List.getElem?_drop, ← hmore, List.getElem?_append_left]
      rw [List.length_cons]
      omega
    rw [hget, byteAt, List.getD_eq_getElem?_getD]
    rw [List.getElem?_eq_getElem (by rw [List.length_cons]; omega)] at hget
    rw [← hget]
    rfl
  have hpos := ch.utf8Size_pos
  have hfirst : c = byteAt s a := by simpa using hbyte 0 hpos
  refine ⟨?_, hfirst ▸ hlead, hfirst ▸ hstart, fun k hk hlt => ?_⟩
  · have hle := h.length_le
    rw [String.length_utf8EncodeChar, List.length_drop] at hle
    have := hpos
    omega
  · obtain ⟨k, rfl⟩ := Nat.exists_eq_succ_of_ne_zero (Nat.pos_iff_ne_zero.mp hk)
    have hget := hbyte (k + 1) hlt
    rw [List.getElem?_cons_succ] at hget
    exact hrest _ (List.mem_of_getElem? hget)

theorem not_inside_of_start (h : isContinuation (byteAt s j) = false) : ¬Inside s j := by
  rintro ⟨a, ch, hpre, hlt, hend⟩
  have hrest := (charBytes hpre).rest (j - a) (by omega) (by omega)
  rw [Nat.add_sub_of_le (Nat.le_of_lt hlt), h] at hrest
  cases hrest

theorem not_inside_length : ¬Inside s s.length :=
  not_inside_of_start (by simp [byteAt, isContinuation])

theorem not_inside_after (h : byteAt s j < 0x80) : ¬Inside s (j + 1) := by
  rintro ⟨a, ch, hpre, hlt, hend⟩
  have hch := charBytes hpre
  rcases Nat.lt_or_eq_of_le (Nat.le_of_lt_succ hlt) with ha | rfl
  · have hrest := hch.rest (j - a) (by omega) (by omega)
    rw [Nat.add_sub_of_le (Nat.le_of_lt ha), ascii_not_continuation h] at hrest
    cases hrest
  · rw [← hch.lead, leadLength_ascii h] at hend
    omega

/-- A character of more than one byte has its continuation bytes. -/
theorem LeadsComplete.continuation {start k : ℕ} (h : LeadsComplete s start) (hj : start ≤ j)
    (hlt : j < s.length) (hk : 0 < k) (hkn : k < (cpAt s j).2) :
    isContinuation (byteAt s (j + k)) = true := by
  rw [cpAt_snd] at hkn
  split_ifs at hkn with hfits
  · have := toInt_le (s.length - j)
    exact h j hj (by omega) k hk hkn
  · omega

/-- Where a character has been taken, none is cut. -/
theorem not_inside_char {start : ℕ} (h : LeadsComplete s start) (hj : start ≤ j) (hlt : j < s.length)
    (hlen : s.length < 2 ^ 31) (hout : ¬Inside s j) : ¬Inside s (j + (cpAt s j).2) := by
  rintro ⟨a, ch, hpre, ha, hend⟩
  have hch := charBytes hpre
  rcases Nat.lt_trichotomy a j with haj | rfl | haj
  · exact hout ⟨a, ch, hpre, haj, by omega⟩
  · have hroom := hch.room
    rw [cpAt_snd, hch.lead, toInt_eq (by omega), if_pos (by omega)] at hend
    exact Nat.lt_irrefl _ hend
  · have hcont := h.continuation hj hlt (k := a - j) (by omega) (by omega)
    rw [Nat.add_sub_of_le (Nat.le_of_lt haj), hch.start] at hcont
    cases hcont

/-- A text in UTF-8 has its continuation bytes, and begins with a character. -/
theorem leadsComplete_utf8 {s : Text} (chars : List Char) {start : ℕ}
    (h : s.drop start = chars.flatMap String.utf8EncodeChar) :
    LeadsComplete s start ∧ ¬Inside s start := by
  induction chars generalizing start with
  | nil =>
    have hend : s.length ≤ start := List.drop_eq_nil_iff.mp h
    refine ⟨fun j hj hroom => ?_, not_inside_of_start ?_⟩
    · have := leadLength_pos (byteAt s j)
      omega
    · rw [byteAt, List.getD_eq_getElem?_getD, List.getElem?_eq_none hend]
      rfl
  | cons ch chars ih =>
    rw [List.flatMap_cons] at h
    have hpre : String.utf8EncodeChar ch <+: s.drop start := h ▸ List.prefix_append _ _
    have hch := charBytes hpre
    have hnext : s.drop (start + ch.utf8Size) = chars.flatMap String.utf8EncodeChar := by
      rw [← List.drop_drop, h, ← String.length_utf8EncodeChar ch, List.drop_left]
    refine ⟨fun j hj hroom k hk hlt => ?_, not_inside_of_start hch.start⟩
    rcases Nat.lt_or_ge j (start + ch.utf8Size) with hin | hout
    · rcases Nat.lt_or_eq_of_le hj with hsj | rfl
      · have hcont := hch.rest (j - start) (by omega) (by omega)
        rw [Nat.add_sub_of_le hj] at hcont
        rw [(continuation_byte hcont).1] at hlt
        omega
      · exact hch.rest k hk (hch.lead ▸ hlt)
    · exact (ih hnext).1 j hout hroom k hk hlt

example : utf8ToCp [0xE2, 0x96, 0x81] 3 = (3, 0x2581) := by decide +kernel

end Utf8

/-- A pretoken has a byte and ends in the text. -/
def Moves (s : Text) (i j : ℕ) : Prop := i < j ∧ j ≤ s.length

theorem moves_skip {p : UInt8 → Bool} (hij : i ≤ j) (h : has p s j = true) : Moves s i (skip p s j) :=
  ⟨Nat.lt_of_le_of_lt hij (lt_skip h), skip_le p (Nat.le_of_lt (has_iff.mp h).1)⟩

theorem moves_skipCps {p : UInt8 → ℕ → Bool} (hij : i ≤ j) (h : hasCp s p j = true) :
    Moves s i (skipCps s p (s.length - j) j) := by
  have hlt := (hasCp_iff.mp h).1
  exact ⟨Nat.lt_of_le_of_lt hij (lt_skipCps h (by omega)), skipCps_le p _ (Nat.le_of_lt hlt)⟩

/-- The bytes of the contractions after the apostrophe. -/
def contractionBytes : List UInt8 := [115, 116, 109, 100, 114, 101, 118, 108]

theorem contraction_spec {lower : UInt8 → UInt8} (h : contraction lower s i = some j) :
    Moves s i j ∧ byteAt s i = 39 ∧
      ∀ k, i < k → k < j → lower (byteAt s k) ∈ contractionBytes := by
  simp only [contraction, Bool.and_eq_true, Bool.or_eq_true, beq_iff_eq, decide_eq_true_eq] at h
  split_ifs at h with h1 h2 h3
  · obtain rfl := Option.some.inj h
    refine ⟨⟨by omega, by omega⟩, h1.1, fun k hk hlt => ?_⟩
    obtain rfl : k = i + 1 := by omega
    rcases h2 with ((h2 | h2) | h2) | h2 <;> simp [h2, contractionBytes]
  · obtain rfl := Option.some.inj h
    refine ⟨⟨by omega, by omega⟩, h1.1, fun k hk hlt => ?_⟩
    obtain rfl | rfl : k = i + 1 ∨ k = i + 2 := by omega
    · rcases h3.2 with (h3 | h3) | h3 <;> simp [h3.1, contractionBytes]
    · rcases h3.2 with (h3 | h3) | h3 <;> simp [h3.2, contractionBytes]

section Bytes

theorem pretokenEnd_moves (hi : i < s.length) : Moves s i (pretokenEnd s i) := by
  rw [pretokenEnd]
  cases h1 : contraction id s i with
  | some j => exact (contraction_spec h1).1
  | none =>
  cases h2 : spaceDigits s i with
  | some j =>
    rw [spaceDigits] at h2
    split_ifs at h2 with h
    rw [Bool.and_eq_true] at h
    exact Option.some.inj h2 ▸ moves_skip (Nat.le_succ i) h.2
  | none =>
  cases h3 : letters s i with
  | some j =>
    simp only [letters] at h3
    split_ifs at h3 with ha hb hb
    · exact Option.some.inj h3 ▸ moves_skip (Nat.le_succ i) hb
    · exact Option.some.inj h3 ▸ moves_skip (Nat.le_refl i) hb
  | none =>
  cases h4 : digits s i with
  | some j =>
    rw [digits] at h4
    split_ifs at h4 with h
    exact Option.some.inj h4 ▸ moves_skip (Nat.le_refl i) (has_iff.mpr ⟨hi, h⟩)
  | none =>
  cases h5 : others s i with
  | some j =>
    simp only [others] at h5
    have hmore : ∀ k, i ≤ k → has isOther s k = true →
        Moves s i (skip isNewline s (skip isOther s k)) := by
      intro _ hk hhas
      obtain ⟨hlt, hle⟩ := moves_skip hk hhas
      exact ⟨Nat.lt_of_lt_of_le hlt (le_skip _ _ _), skip_le _ hle⟩
    split_ifs at h5 with ha hb hb
    · exact Option.some.inj h5 ▸ hmore _ (Nat.le_succ i) hb
    · exact Option.some.inj h5 ▸ hmore _ (Nat.le_refl i) hb
  | none =>
  cases h6 : newlines s i with
  | some j =>
    simp only [newlines] at h6
    split_ifs at h6 with h
    exact Option.some.inj h6 ▸ moves_skip (le_skip _ _ _) h
  | none =>
  cases h7 : spaces s i with
  | some j =>
    simp only [spaces] at h7
    split_ifs at h7 with h hback
    · rw [Bool.and_eq_true, decide_eq_true_eq] at hback
      have hle := skip_le isSpace (Nat.le_of_lt hi)
      change Moves s i j
      rw [← Option.some.inj h7]
      exact ⟨by omega, by omega⟩
    · exact Option.some.inj h7 ▸ moves_skip (Nat.le_refl i) (has_iff.mpr ⟨hi, h⟩)
  | none => exact ⟨Nat.lt_succ_self i, hi⟩

end Bytes

section Chars

variable {start : ℕ}

/-- From `i` to `j` there is no digit, and no character is cut at `j`. -/
structure Clean (s : Text) (i j : ℕ) : Prop where
  le : i ≤ j
  noDigit : ∀ k, i ≤ k → k < j → isDigit (byteAt s k) = false
  between : s.length < 2 ^ 31 → ¬Inside s i → ¬Inside s j

theorem Clean.refl (s : Text) (i : ℕ) : Clean s i i :=
  ⟨Nat.le_refl _, fun _ hk hlt => absurd hlt (Nat.not_lt.mpr hk), fun _ h => h⟩

theorem Clean.ascii (h : Clean s i j) (hascii : byteAt s j < 0x80)
    (hdigit : isDigit (byteAt s j) = false) : Clean s i (j + 1) := by
  refine ⟨h.le.trans (Nat.le_succ j), fun k hk hlt => ?_, fun _ _ => not_inside_after hascii⟩
  rcases Nat.lt_or_eq_of_le (Nat.le_of_lt_succ hlt) with hkj | rfl
  · exact h.noDigit k hk hkj
  · exact hdigit

theorem Clean.bytes (hij : i ≤ j) (h : ∀ k, i ≤ k → k < j →
    byteAt s k < 0x80 ∧ isDigit (byteAt s k) = false) : Clean s i j := by
  induction j, hij using Nat.le_induction with
  | base => exact .refl s i
  | succ j hij ih =>
    have hlast := h j hij (Nat.lt_succ_self j)
    exact (ih fun k hk hlt => h k hk (hlt.trans (Nat.lt_succ_self j))).ascii hlast.1 hlast.2

theorem not_digit_of_letter {cp : ℕ} (h : cpIsLetter cp = true) : cpIsDigit cp = false := by
  rw [cpIsLetter] at h
  rw [cpIsDigit]
  split_ifs at h with hascii
  · simp only [Bool.or_eq_true, Bool.and_eq_true, decide_eq_true_eq] at h
    simp
    omega
  all_goals
    simp
    omega

/-- A character that is no digit has no digit among its bytes. -/
theorem Clean.char (hleads : LeadsComplete s start) (hi : start ≤ i) (h : Clean s i j)
    (hj : j < s.length) (hcp : cpIsDigit (cpAt s j).1 = false) : Clean s i (j + (cpAt s j).2) := by
  have hsj := hi.trans h.le
  refine ⟨h.le.trans (Nat.le_add_right _ _), fun k hk hlt => ?_, fun hlen hin =>
    not_inside_char hleads hsj hj hlen (h.between hlen hin)⟩
  rcases Nat.lt_trichotomy k j with hkj | rfl | hkj
  · exact h.noDigit k hk hkj
  · by_cases hone : (cpAt s k).2 = 1
    · rw [isDigit_eq, ← cpAt_fst hone]
      exact hcp
    · have hbig : ¬byteAt s k < 0x80 := fun hascii => hone (cpAt_ascii hascii)
      exact (wide_byte hbig).1
  · have hcont := hleads.continuation hsj hj (k := k - j) (by omega) (by omega)
    rw [Nat.add_sub_of_le (Nat.le_of_lt hkj)] at hcont
    exact (continuation_byte hcont).2

theorem Clean.skipCps (hleads : LeadsComplete s start) (hi : start ≤ i) {p : UInt8 → ℕ → Bool}
    (hp : ∀ c cp, p c cp = true → cpIsDigit cp = false) (fuel : ℕ) (h : Clean s i j) :
    Clean s i (skipCps s p fuel j) :=
  skipCps_induct (P := Clean s i) (fun _ hk hclean =>
    hclean.char hleads hi (hasCp_iff.mp hk).1 (hp _ _ (hasCp_iff.mp hk).2)) fuel h

theorem Clean.skip {p : UInt8 → Bool} (hp : ∀ c, p c = true → isSpace c = true) (h : Clean s i j) :
    Clean s i (skip p s j) :=
  skip_induct (P := Clean s i) (fun _ hk hclean =>
    have hspace := space_ascii (hp _ (has_iff.mp hk).2)
    hclean.ascii hspace.1 hspace.2) h

/-- What is passed over up to the last newline is spaces. -/
theorem lastNewlineEnd_spec (fuel last : ℕ) (hlast : last ≤ j) (hj : j ≤ s.length)
    (hspaces : ∀ k, i ≤ k → k < j → isSpace (byteAt s k) = true) :
    last ≤ lastNewlineEnd s fuel j last ∧ lastNewlineEnd s fuel j last ≤ s.length ∧
      ∀ k, i ≤ k → k < lastNewlineEnd s fuel j last → isSpace (byteAt s k) = true := by
  have hstop : last ≤ last ∧ last ≤ s.length ∧
      ∀ k, i ≤ k → k < last → isSpace (byteAt s k) = true :=
    ⟨Nat.le_refl _, hlast.trans hj, fun k hk hlt => hspaces k hk (Nat.lt_of_lt_of_le hlt hlast)⟩
  induction fuel generalizing j last with
  | zero => exact hstop
  | succ fuel ih =>
    rw [lastNewlineEnd]
    simp only
    split_ifs with hhas hnl hk
    · have hlt := (has_iff.mp hhas).1
      have hspaces' : ∀ k, i ≤ k → k < j + 1 → isSpace (byteAt s k) = true := by
        intro k hk hlt
        rcases Nat.lt_or_eq_of_le (Nat.le_of_lt_succ hlt) with hkj | rfl
        · exact hspaces k hk hkj
        · exact (has_iff.mp hhas).2
      obtain ⟨h1, h2, h3⟩ := ih (j + 1) (Nat.le_refl _) hlt hspaces'
        ⟨Nat.le_refl _, hlt, hspaces'⟩
      exact ⟨by omega, h2, h3⟩
    · have hle := le_skip (fun c => isSpace c && !isNewline c) s j
      refine ih last (hlast.trans hle) (Nat.le_of_lt (has_iff.mp hk).1) (fun k hik hlt => ?_) hstop
      rcases Nat.lt_or_ge k j with hkj | hjk
      · exact hspaces k hik hkj
      · have := of_lt_skip hjk hlt
        rw [Bool.and_eq_true] at this
        exact this.1
    · exact hstop
    · exact hstop

theorem containsNewline_eq (s : Text) (j : ℕ) : containsNewlineBeforeNonNewlineRun s j =
    (has isSpace s j && (isNewline (byteAt s j) || containsNewlineBeforeNonNewlineRun s (j + 1))) := by
  by_cases hj : j < s.length
  · have hdrop : s.drop j = byteAt s j :: s.drop (j + 1) := by
      rw [byteAt, List.getD_eq_getElem?_getD, List.getElem?_eq_getElem hj]
      exact List.drop_eq_getElem_cons hj
    rw [containsNewlineBeforeNonNewlineRun, hdrop, has, decide_eq_true hj, Bool.true_and]
    cases hspace : isSpace (byteAt s j) with
    | true => rw [List.takeWhile_cons_of_pos hspace, List.any_cons, Bool.true_and]; rfl
    | false => rw [List.takeWhile_cons_of_neg (by simp [hspace]), List.any_nil, Bool.false_and]
  · rw [containsNewlineBeforeNonNewlineRun, List.drop_eq_nil_of_le (Nat.le_of_not_lt hj), has,
      decide_eq_false hj]
    rfl

/-- The other spaces end at the newline. -/
theorem has_newline_skip (h : containsNewlineBeforeNonNewlineRun s j = true) :
    has isNewline s (skip (fun c => isSpace c && !isNewline c) s j) = true := by
  induction hn : s.length - j generalizing j with
  | zero =>
    rw [containsNewline_eq, has, decide_eq_false (by omega)] at h
    cases h
  | succ n ih =>
    rw [containsNewline_eq, Bool.and_eq_true, Bool.or_eq_true, has_iff] at h
    obtain ⟨⟨hj, hspace⟩, hrest⟩ := h
    rw [skip_eq]
    cases hnl : isNewline (byteAt s j) with
    | true =>
      rw [if_neg (by simp [has, hnl]), has_iff]
      exact ⟨hj, hnl⟩
    | false =>
      rw [if_pos (has_iff.mpr ⟨hj, by simp [hspace, hnl]⟩)]
      exact ih (hrest.resolve_left (by simp [hnl])) (by omega)

theorem lt_lastNewlineEnd_of_newline {fuel : ℕ} (last : ℕ) (h : has isNewline s j = true)
    (hfuel : 0 < fuel) : j < lastNewlineEnd s fuel j last := by
  obtain ⟨fuel, rfl⟩ := Nat.exists_eq_succ_of_ne_zero (Nat.pos_iff_ne_zero.mp hfuel)
  obtain ⟨hj, hnl⟩ := has_iff.mp h
  rw [Nat.succ_eq_add_one, lastNewlineEnd, if_pos (has_iff.mpr ⟨hj, newline_space hnl⟩), if_pos hnl]
  exact (lastNewlineEnd_spec (i := j + 1) fuel (j + 1) (Nat.le_refl _) hj
    fun k hk hlt => absurd hlt (Nat.not_lt.mpr hk)).1

/-- With a newline among the spaces the loop goes beyond its start. -/
theorem lt_lastNewlineEnd {fuel : ℕ} (last : ℕ) (hj : j < s.length) (hfuel : s.length - j ≤ fuel)
    (h : containsNewlineBeforeNonNewlineRun s j = true) : j < lastNewlineEnd s fuel j last := by
  have hnext := has_newline_skip h
  cases hnl : isNewline (byteAt s j) with
  | true => exact lt_lastNewlineEnd_of_newline last (has_iff.mpr ⟨hj, hnl⟩) (by omega)
  | false =>
    rw [containsNewline_eq, Bool.and_eq_true] at h
    obtain ⟨fuel, rfl⟩ := Nat.exists_eq_succ_of_ne_zero (n := fuel) (by omega)
    have hlt : j < skip (fun c => isSpace c && !isNewline c) s j :=
      lt_skip (has_iff.mpr ⟨hj, by simp [(has_iff.mp h.1).2, hnl]⟩)
    have hroom := (has_iff.mp hnext).1
    rw [Nat.succ_eq_add_one, lastNewlineEnd, if_pos h.1, if_neg (by simp [hnl])]
    simp only
    rw [if_pos hnext]
    exact hlt.trans (lt_lastNewlineEnd_of_newline last hnext (by omega))

theorem low_eq (x : ℕ) : (UInt8.ofNat (x % 64 + 128) &&& 0x3F).toNat = x % 64 := (low_byte x).2

theorem utf8ToCp_two {c b : UInt8} {t : Text} {room : ℤ} (h : ¬c < 0x80)
    (h2 : (c &&& 0xE0 == 0xC0) = true) (hroom : 2 ≤ room) :
    (utf8ToCp (c :: b :: t) room).2 = (c &&& 0x1F).toNat <<< 6 ||| (b &&& 0x3F).toNat := by
  have hpos : ¬room ≤ 0 := by omega
  simp [utf8ToCp, byteAt, hpos, h, h2, hroom]

theorem utf8ToCp_three {c b d : UInt8} {t : Text} {room : ℤ} (h : ¬c < 0x80)
    (h2 : (c &&& 0xE0 == 0xC0) = false) (h3 : (c &&& 0xF0 == 0xE0) = true) (hroom : 3 ≤ room) :
    (utf8ToCp (c :: b :: d :: t) room).2 =
      (c &&& 0x0F).toNat <<< 12 ||| (b &&& 0x3F).toNat <<< 6 ||| (d &&& 0x3F).toNat := by
  have hpos : ¬room ≤ 0 := by omega
  simp [utf8ToCp, byteAt, hpos, h, h2, h3, hroom]

theorem utf8ToCp_four {c b d e : UInt8} {t : Text} {room : ℤ} (h : ¬c < 0x80)
    (h2 : (c &&& 0xE0 == 0xC0) = false) (h3 : (c &&& 0xF0 == 0xE0) = false)
    (h4 : (c &&& 0xF8 == 0xF0) = true) (hroom : 4 ≤ room) :
    (utf8ToCp (c :: b :: d :: e :: t) room).2 = (c &&& 0x07).toNat <<< 18 |||
      (b &&& 0x3F).toNat <<< 12 ||| (d &&& 0x3F).toNat <<< 6 ||| (e &&& 0x3F).toNat := by
  have hpos : ¬room ≤ 0 := by omega
  simp [utf8ToCp, byteAt, hpos, h, h2, h3, h4, hroom]

/-- The code point that is read of a character of more than one byte is above ASCII. -/
theorem le_utf8ToCp {ch : Char} (more : Text) {room : ℤ} (hsize : 2 ≤ ch.utf8Size)
    (hroom : (ch.utf8Size : ℤ) ≤ room) :
    128 ≤ (utf8ToCp (String.utf8EncodeChar ch ++ more) room).2 := by
  rw [← String.length_utf8EncodeChar ch] at hsize hroom
  rcases encode_cases ch with ⟨-, henc⟩ | ⟨hv, henc, htop⟩ | ⟨hv, henc, htop⟩ | ⟨hv, henc, htop⟩
  · rw [henc] at hsize
    exact absurd hsize (by simp)
  · obtain ⟨-, ha, hb, hc⟩ := lead_byte.2.1 (ch.val.toNat / 64 % 32) (Nat.mod_lt _ (by decide))
    have hbound : 128 ≤ (ch.val.toNat / 64 % 32) <<< 6 := by
      rw [Nat.shiftLeft_eq]
      omega
    rw [henc] at hroom ⊢
    simp only [List.cons_append]
    rw [utf8ToCp_two ha hb hroom, hc]
    exact hbound.trans Nat.left_le_or
  · obtain ⟨-, ha, hb, hc, hd⟩ :=
      lead_byte.2.2.1 (ch.val.toNat / 4096 % 16) (Nat.mod_lt _ (by decide))
    rw [henc] at hroom ⊢
    simp only [List.cons_append]
    rw [utf8ToCp_three ha hb hc hroom, hd, low_eq]
    by_cases hhigh : 4096 ≤ ch.val.toNat
    · have hbound : 128 ≤ (ch.val.toNat / 4096 % 16) <<< 12 := by
        rw [Nat.shiftLeft_eq]
        omega
      exact (hbound.trans Nat.left_le_or).trans Nat.left_le_or
    · have hbound : 128 ≤ (ch.val.toNat / 64 % 64) <<< 6 := by
        rw [Nat.shiftLeft_eq]
        omega
      exact (hbound.trans Nat.right_le_or).trans Nat.left_le_or
  · obtain ⟨-, ha, hb, hc, hd, he⟩ :=
      lead_byte.2.2.2 (ch.val.toNat / 262144 % 8) (Nat.mod_lt _ (by decide))
    rw [henc] at hroom ⊢
    simp only [List.cons_append]
    rw [utf8ToCp_four ha hb hc hd hroom, he, low_eq]
    by_cases hhigh : 262144 ≤ ch.val.toNat
    · have hbound : 128 ≤ (ch.val.toNat / 262144 % 8) <<< 18 := by
        rw [Nat.shiftLeft_eq]
        omega
      exact ((hbound.trans Nat.left_le_or).trans Nat.left_le_or).trans Nat.left_le_or
    · have hbound : 128 ≤ (ch.val.toNat / 4096 % 64) <<< 12 := by
        rw [Nat.shiftLeft_eq]
        omega
      exact ((hbound.trans Nat.right_le_or).trans Nat.left_le_or).trans Nat.left_le_or

/-- Where no other alternative takes a byte it is not the first of a longer character. -/
theorem not_inside_default (hi : i < s.length) (hlen : s.length < 2 ^ 31) (hout : ¬Inside s i)
    (hletters : unicodeLetters s i = none) (hothers : unicodeOthers s i = none) :
    ¬Inside s (i + 1) := by
  rintro ⟨a, ch, hpre, ha, hend⟩
  obtain rfl : a = i := by
    by_contra hne
    exact hout ⟨a, ch, hpre, by omega, by omega⟩
  have hch := charBytes hpre
  have hsize : 2 ≤ ch.utf8Size := by omega
  have hbig : ¬byteAt s a < 0x80 := fun hascii => by
    have := leadLength_ascii hascii
    rw [hch.lead] at this
    omega
  have hroom := hch.room
  have hcp : cpIsDigit (cpAt s a).1 = false := by
    obtain ⟨more, hmore⟩ := hpre
    have hle := le_utf8ToCp more hsize (show (ch.utf8Size : ℤ) ≤ toInt (s.length - a) by
      rw [toInt_eq (by omega)]
      omega)
    rw [hmore] at hle
    have hfst : 128 ≤ (cpAt s a).1 := by
      obtain ⟨x, hx⟩ : ∃ x, utf8ToCp (s.drop a) (toInt (s.length - a)) = x := ⟨_, rfl⟩
      rw [hx] at hle
      rw [cpAt_fst_of_read hx]
      split_ifs with hpos
      · exact hle
      · have h128 : (0x80 : UInt8).toNat ≤ (byteAt s a).toNat :=
          UInt8.le_iff_toNat_le.mp (UInt8.not_lt.mp hbig)
        have hval : (0x80 : UInt8).toNat = 128 := rfl
        omega
    rw [cpIsDigit]
    simp
    omega
  cases hletter : cpIsLetter (cpAt s a).1 with
  | true =>
    have hhas : hasCp s (fun _ => cpIsLetter) a = true := hasCp_iff.mpr ⟨hi, hletter⟩
    simp [unicodeLetters, hletter, hhas] at hletters
  | false =>
    obtain ⟨-, hblank, hspace⟩ := wide_byte hbig
    have hhas : hasCp s isOtherCp a = true :=
      hasCp_iff.mpr ⟨hi, by simp [isOtherCp, hspace, hletter, hcp]⟩
    simp [unicodeOthers, hblank, hhas] at hothers

/-- What each pretoken is: it goes on, has no digit or only digits, and cuts no character. -/
theorem unicodePretokenEnd_spec (start : ℕ) {n : ℕ} (hn : 0 < n) (hi : i < s.length) :
    Moves s i (unicodePretokenEnd s i n) ∧
      (LeadsComplete s start → start ≤ i → DigitsApart s n i (unicodePretokenEnd s i n) ∧
        (s.length < 2 ^ 31 → ¬Inside s i → ¬Inside s (unicodePretokenEnd s i n))) := by
  have hclean : ∀ {j}, Moves s i j → (LeadsComplete s start → start ≤ i → Clean s i j) →
      Moves s i j ∧ (LeadsComplete s start → start ≤ i → DigitsApart s n i j ∧
        (s.length < 2 ^ 31 → ¬Inside s i → ¬Inside s j)) := fun hmoves h =>
    ⟨hmoves, fun hleads hs => ⟨.inl (h hleads hs).noDigit, (h hleads hs).between⟩⟩
  suffices h : ∀ j, unicodePretokenEnd s i n = j → Moves s i j ∧
      (LeadsComplete s start → start ≤ i → DigitsApart s n i j ∧
        (s.length < 2 ^ 31 → ¬Inside s i → ¬Inside s j)) from h _ rfl
  intro j hj
  rw [unicodePretokenEnd] at hj
  cases h1 : contraction tolower s i with
  | some e =>
    rw [h1] at hj
    obtain rfl : e = j := hj
    obtain ⟨hmoves, hquote, hrest⟩ := contraction_spec h1
    refine hclean hmoves fun _ _ => .bytes (Nat.le_of_lt hmoves.1) fun k hk hlt => ?_
    rcases Nat.lt_or_eq_of_le hk with hik | rfl
    · have key := forall_byte (P := fun c => tolower c ∈ contractionBytes →
        c < 0x80 ∧ isDigit c = false) (by decide +kernel)
      exact key _ (hrest k hik hlt)
    · rw [hquote]
      decide
  | none =>
  cases h2 : unicodeLetters s i with
  | some e =>
    rw [h1, h2] at hj
    obtain rfl : e = j := hj
    have h2' := h2
    simp only [unicodeLetters] at h2'
    split_ifs at h2' with ha hb hb
    · obtain rfl := Option.some.inj h2'
      refine hclean (moves_skipCps (Nat.le_add_right _ _) hb) fun hleads hs => ?_
      rw [Bool.and_eq_true, Bool.not_eq_true'] at ha
      exact ((Clean.refl s i).char hleads hs hi (by simpa using ha.2)).skipCps hleads hs
        (fun _ _ => not_digit_of_letter) _
    · obtain rfl := Option.some.inj h2'
      exact hclean (moves_skipCps (Nat.le_refl _) hb) fun hleads hs =>
        (Clean.refl s i).skipCps hleads hs (fun _ _ => not_digit_of_letter) _
  | none =>
  cases h3 : unicodeDigits s i n with
  | some e =>
    rw [h1, h2, h3] at hj
    obtain rfl : e = j := hj
    rw [unicodeDigits] at h3
    split_ifs at h3 with hdigit
    rw [List.length_take] at h3
    have hskip := lt_skip (has_iff.mpr ⟨hi, hdigit⟩)
    have hle := skip_le (s := s) isDigit (Nat.le_of_lt hi)
    have hj := (Option.some.inj h3).symm
    have hlow : e ≤ skip isDigit s i := by
      rw [hj, skip]
      exact Nat.add_le_add_left (Nat.min_le_right _ _) i
    have hpos : i < e := by
      rw [skip] at hskip
      omega
    have hall : ∀ k, i ≤ k → k < e → isDigit (byteAt s k) = true := fun k hk hlt =>
      of_lt_skip hk (Nat.lt_of_lt_of_le hlt hlow)
    refine ⟨⟨hpos, hlow.trans hle⟩, fun _ _ => ⟨.inr ⟨hall, by omega⟩, fun _ _ => ?_⟩⟩
    have hafter := not_inside_after (digit_ascii (hall (e - 1) (by omega) (by omega)))
    rwa [Nat.sub_add_cancel (by omega)] at hafter
  | none =>
  cases h4 : unicodeOthers s i with
  | some e =>
    rw [h1, h2, h3, h4] at hj
    obtain rfl : e = j := hj
    have h4' := h4
    have hother : ∀ c cp, isOtherCp c cp = true → cpIsDigit cp = false := fun c cp h => by
      rw [isOtherCp, Bool.and_eq_true, Bool.not_eq_true'] at h
      exact h.2
    have hmore : ∀ k, i ≤ k → hasCp s isOtherCp k = true →
        (LeadsComplete s start → start ≤ i → Clean s i k) →
        Moves s i (skip isNewline s (skipCps s isOtherCp (s.length - k) k)) ∧
          (LeadsComplete s start → start ≤ i →
            Clean s i (skip isNewline s (skipCps s isOtherCp (s.length - k) k))) := by
      intro k hk hhas hk'
      obtain ⟨hlt, hle⟩ := moves_skipCps hk hhas
      refine ⟨⟨Nat.lt_of_lt_of_le hlt (le_skip _ _ _), skip_le _ hle⟩, fun hleads hs => ?_⟩
      exact ((hk' hleads hs).skipCps hleads hs hother _).skip fun _ => newline_space
    simp only [unicodeOthers] at h4'
    split_ifs at h4' with ha hb hb
    · obtain rfl := Option.some.inj h4'
      have hspace : isSpace (byteAt s i) = true := by
        rw [beq_iff_eq.mp ha]
        decide
      have hstep := hmore _ (Nat.le_succ i) hb fun _ _ =>
        (Clean.refl s i).ascii (space_ascii hspace).1 (space_ascii hspace).2
      exact hclean hstep.1 hstep.2
    · obtain rfl := Option.some.inj h4'
      have hstep := hmore _ (Nat.le_refl i) hb fun _ _ => .refl s i
      exact hclean hstep.1 hstep.2
  | none =>
  cases h5 : unicodeSpaces s i with
  | some e =>
    rw [h1, h2, h3, h4, h5] at hj
    obtain rfl : e = j := hj
    have hall : Moves s i e ∧ ∀ k, i ≤ k → k < e → isSpace (byteAt s k) = true := by
      rw [unicodeSpaces] at h5
      simp only at h5
      split_ifs at h5 with hspace hnl hback
      · obtain rfl := Option.some.inj h5
        have hspec := lastNewlineEnd_spec (s.length - i) i (Nat.le_refl i) (Nat.le_of_lt hi)
          (i := i) fun k hk hlt => absurd hlt (Nat.not_lt.mpr hk)
        exact ⟨⟨lt_lastNewlineEnd i hi (Nat.le_refl _) hnl, hspec.2.1⟩, hspec.2.2⟩
      · obtain rfl := Option.some.inj h5
        rw [Bool.and_eq_true, decide_eq_true_eq, decide_eq_true_eq] at hback
        exact ⟨⟨by omega, by omega⟩, fun k hk hlt => of_lt_skip hk (by omega)⟩
      · obtain rfl := Option.some.inj h5
        exact ⟨moves_skip (Nat.le_refl i) (has_iff.mpr ⟨hi, hspace⟩), fun k => of_lt_skip⟩
    exact hclean hall.1 fun _ _ => .bytes (Nat.le_of_lt hall.1.1) fun k hk hlt =>
      space_ascii (hall.2 k hk hlt)
  | none =>
    rw [h1, h2, h3, h4, h5] at hj
    obtain rfl : i + 1 = j := hj
    refine hclean ⟨Nat.lt_succ_self i, hi⟩ fun _ _ => ⟨Nat.le_succ i, fun k hk hlt => ?_,
      fun hlen hout => not_inside_default hi hlen hout h2 h4⟩
    obtain rfl : k = i := by omega
    rw [unicodeDigits] at h3
    split_ifs at h3 with hdigit
    exact Bool.eq_false_iff.mpr hdigit

end Chars

section Runs

variable {next : ℕ → ℕ × ℕ} {stop : ℕ}

/-- Pretokens that go on leave nothing out. -/
theorem partition_pieces (hnext : ∀ i < stop, 0 < (next i).1 ∧ (next i).2 = i + (next i).1 ∧
    (next i).2 ≤ stop) (fuel pos : ℕ) (hpos : pos ≤ stop) (hfuel : stop - pos ≤ fuel) :
    Partition pos stop (pieces next stop fuel pos) := by
  induction fuel generalizing pos with
  | zero =>
    rw [pieces, Partition]
    omega
  | succ fuel ih =>
    rw [pieces]
    split_ifs with hlt hzero
    · have := (hnext pos hlt).1
      omega
    · obtain ⟨hlen, hmove, hle⟩ := hnext pos hlt
      rw [Partition]
      refine ⟨rfl, hlen, ?_⟩
      rw [← hmove]
      exact ih _ hle (by omega)
    · rw [Partition]
      omega

/-- What holds of the first position and is kept by a pretoken holds at the end of each. -/
theorem pieces_induct (next : ℕ → ℕ × ℕ) (stop : ℕ) {P : ℕ → Prop} {Q : ℕ → ℕ → Prop}
    (hnext : ∀ i < stop, P i → (next i).2 = i + (next i).1 ∧ P (next i).2 ∧ Q i (next i).2)
    (fuel pos : ℕ) (hpos : P pos) :
    ∀ p ∈ pieces next stop fuel pos, P (p.1 + p.2) ∧ Q p.1 (p.1 + p.2) := by
  induction fuel generalizing pos with
  | zero => exact fun p hp => absurd hp List.not_mem_nil
  | succ fuel ih =>
    intro p hp
    rw [pieces] at hp
    split_ifs at hp with hlt hzero
    · exact absurd hp List.not_mem_nil
    · obtain ⟨hmove, hP, hQ⟩ := hnext pos hlt hpos
      rcases List.mem_cons.mp hp with rfl | hp
      · rw [hmove] at hP hQ
        exact ⟨hP, hQ⟩
      · exact ih _ hP p hp
    · exact absurd hp List.not_mem_nil

end Runs

theorem nextPretoken_spec (hi : i < s.length) : 0 < (nextPretoken s i).1 ∧
    (nextPretoken s i).2 = i + (nextPretoken s i).1 ∧ (nextPretoken s i).2 ≤ s.length := by
  obtain ⟨hlt, hle⟩ := pretokenEnd_moves hi
  rw [nextPretoken, if_neg (Nat.not_le.mpr hi)]
  exact ⟨Nat.sub_pos_of_lt hlt, (Nat.add_sub_of_le (Nat.le_of_lt hlt)).symm, hle⟩

theorem nextPretokenUnicode_spec {n : ℕ} (hn : 0 < n) (hi : i < s.length) :
    0 < (nextPretokenUnicode s i n).1 ∧
    (nextPretokenUnicode s i n).2 = i + (nextPretokenUnicode s i n).1 ∧
    (nextPretokenUnicode s i n).2 ≤ s.length := by
  obtain ⟨⟨hlt, hle⟩, -⟩ := unicodePretokenEnd_spec 0 hn hi
  rw [nextPretokenUnicode, if_neg (Nat.not_le.mpr hi)]
  exact ⟨Nat.sub_pos_of_lt hlt, (Nat.add_sub_of_le (Nat.le_of_lt hlt)).symm, hle⟩

/-- `encode_gpt2_chunk` encodes the text from `start` to `stop`, whichever pretokenizer it has. -/
theorem encodeGpt2Chunk_partition (pre : TokPre) (text : Text) {start stop : ℕ} (hle : start ≤ stop)
    (hstop : stop ≤ text.length) : Partition start stop (encodeGpt2Chunk pre text start stop) := by
  have hlen : (text.take stop).length = stop := by
    rw [List.length_take]
    exact Nat.min_eq_left hstop
  refine partition_pieces (fun i hi => ?_) _ _ hle (Nat.le_refl _)
  have hi' : i < (text.take stop).length := hlen.symm ▸ hi
  cases pre with
  | gpt2 =>
    have hnext := nextPretoken_spec hi'
    rw [hlen] at hnext
    exact hnext
  | llama3 =>
    have hnext := nextPretokenUnicode_spec (n := 3) (by decide) hi'
    rw [hlen] at hnext
    exact hnext
  | qwen35 =>
    have hnext := nextPretokenUnicode_spec (n := 1) (by decide) hi'
    rw [hlen] at hnext
    exact hnext

/-- Both pretokenizers go on and leave nothing out. Where continuation bytes follow the lead bytes, as in
UTF-8, the pretokens by characters have digits alone and not too many, and in a text of a length that is
an `int` they cut no character. -/
theorem pretokens_spec (s : Text) (start : ℕ) (hstart : start < s.length) :
    ((0 < (nextPretoken s start).1 ∧ (nextPretoken s start).2 = start + (nextPretoken s start).1) ∧
      Partition start s.length (pieces (nextPretoken s) s.length (s.length - start) start)) ∧
    ∀ n, 0 < n →
      (0 < (nextPretokenUnicode s start n).1 ∧
        (nextPretokenUnicode s start n).2 = start + (nextPretokenUnicode s start n).1) ∧
      Partition start s.length
        (pieces (fun i => nextPretokenUnicode s i n) s.length (s.length - start) start) ∧
      (LeadsComplete s start →
        ∀ p ∈ pieces (fun i => nextPretokenUnicode s i n) s.length (s.length - start) start,
          DigitsApart s n p.1 (p.1 + p.2) ∧
          (s.length < 2 ^ 31 → ¬Inside s start → ¬Inside s (p.1 + p.2))) := by
  have hbytes := nextPretoken_spec hstart
  refine ⟨⟨⟨hbytes.1, hbytes.2.1⟩, partition_pieces (fun i => nextPretoken_spec) _ _
    (Nat.le_of_lt hstart) (Nat.le_refl _)⟩, fun n hn => ?_⟩
  have hchars := nextPretokenUnicode_spec hn hstart
  refine ⟨⟨hchars.1, hchars.2.1⟩, partition_pieces (fun i => nextPretokenUnicode_spec hn) _ _
    (Nat.le_of_lt hstart) (Nat.le_refl _), fun hleads => ?_⟩
  have hrun := pieces_induct (fun i => nextPretokenUnicode s i n) s.length
    (P := fun i => start ≤ i ∧ (s.length < 2 ^ 31 → ¬Inside s start → ¬Inside s i))
    (Q := DigitsApart s n)
    (fun i hi hP => by
      obtain ⟨hpos, hmove, -⟩ := nextPretokenUnicode_spec hn hi
      obtain ⟨-, hspec⟩ := unicodePretokenEnd_spec start hn hi
      have hend : (nextPretokenUnicode s i n).2 = unicodePretokenEnd s i n := by
        rw [nextPretokenUnicode, if_neg (Nat.not_le.mpr hi)]
      obtain ⟨hdigits, hbetween⟩ := hspec hleads hP.1
      rw [← hend] at hdigits hbetween
      exact ⟨hmove, ⟨by have := hP.1; omega, fun hlen hout => hbetween hlen (hP.2 hlen hout)⟩, hdigits⟩)
    (s.length - start) start ⟨Nat.le_refl _, fun _ h => h⟩
  exact fun p hp => ⟨(hrun p hp).2, (hrun p hp).1.2⟩

theorem pretokens_spec_of_umlaut :
    DigitsApart [0xC3, 0xA9, 0x31, 0x32] 1 2 3 ∧ ¬Inside [0xC3, 0xA9, 0x31, 0x32] 2 := by
  have hutf := leadsComplete_utf8 ['é', '1', '2']
    (show [0xC3, 0xA9, 0x31, 0x32].drop 0 = _ by decide +kernel)
  have h := ((pretokens_spec [0xC3, 0xA9, 0x31, 0x32] 0 (by decide)).2 1 (by decide)).2.2 hutf.1
  exact ⟨(h (2, 1) (by decide +kernel)).1,
    (h (0, 2) (by decide +kernel)).2 (by decide) hutf.2⟩

/-- A lead byte takes the bytes after it whatever they are: here it takes the lead byte of the character
after it and leaves its other two bytes, and a digit into a run of letters. From 2^31 bytes on a lead
byte is taken alone. -/
theorem pretokens_of_stray_lead :
    (nextPretokenUnicode [0xC3, 0xE4, 0xB8, 0xAD] 0 1 = (2, 2) ∧ Inside [0xC3, 0xE4, 0xB8, 0xAD] 2) ∧
    (nextPretokenUnicode [97, 0xC3, 0x31, 98] 0 1 = (4, 4) ∧ ¬DigitsApart [97, 0xC3, 0x31, 98] 1 0 4) ∧
    (nextPretokenUnicode ([0xE4, 0xB8, 0xAD] ++ List.replicate (2 ^ 31) 97) 0 1 = (1, 1) ∧
      Inside ([0xE4, 0xB8, 0xAD] ++ List.replicate (2 ^ 31) 97) 1) := by
  refine ⟨⟨by decide +kernel, 1, '中', by decide +kernel, by decide, by decide +kernel⟩,
    ⟨by decide +kernel, fun h => ?_⟩, ?_, 0, '中', ?_, by decide, by decide +kernel⟩
  · rcases h with h | ⟨h, -⟩
    · exact absurd (h 2 (by decide) (by decide)) (by decide +kernel)
    · exact absurd (h 0 (by decide) (by decide)) (by decide +kernel)
  · set s : Text := [0xE4, 0xB8, 0xAD] ++ List.replicate (2 ^ 31) 97 with hs
    have hlen : s.length = 2147483650 + 1 := by
      rw [hs, List.length_append, List.length_replicate]
      rfl
    have h0 : byteAt s 0 = 0xE4 := rfl
    have h1 : byteAt s 1 = 0xB8 := rfl
    have hcp0 : cpAt s 0 = (0xE4, 1) := by
      have hroom : toInt (s.length - 0) ≤ 0 := by
        rw [hlen]
        decide
      rw [cpAt, utf8ToCp, if_pos hroom, h0]
      rfl
    have hcp1 : cpAt s 1 = (0xB8, 1) := by
      have hroom : toInt (s.length - 1) ≤ 0 := by
        rw [hlen]
        decide
      rw [cpAt, utf8ToCp, if_pos hroom, h1]
      rfl
    have hletters : unicodeLetters s 0 = some 1 := by
      have hfirst : hasCp s (fun _ => cpIsLetter) 0 = true :=
        hasCp_iff.mpr ⟨by omega, by rw [hcp0]; decide⟩
      have hsecond : hasCp s (fun _ => cpIsLetter) 1 = false := by
        rw [hasCp, hcp1]
        exact Bool.and_false _
      have hrun : skipCps s (fun _ => cpIsLetter) (s.length - 0) 0 = 1 := by
        have hnext : 0 + ((0xE4 : ℕ), 1).2 = 1 := rfl
        rw [hlen, Nat.sub_zero, skipCps, if_pos hfirst, hcp0, hnext, skipCps, hsecond,
          if_neg Bool.false_ne_true]
      have hhead : (!isNewline (byteAt s 0) && !cpIsLetter 0xE4 && !cpIsDigit 0xE4) = false := by
        rw [h0]
        decide
      rw [unicodeLetters, hcp0]
      simp only [hhead, Bool.false_eq_true, if_false, hfirst, if_true, hrun]
    have hquote : contraction tolower s 0 = none := by
      rw [contraction, h0]
      rfl
    rw [nextPretokenUnicode, if_neg (by omega), unicodePretokenEnd, hquote, hletters]
    rfl
  · exact ⟨List.replicate (2 ^ 31) 97, by rw [List.drop_zero]; rfl⟩

end Pretoken

end Kappai
