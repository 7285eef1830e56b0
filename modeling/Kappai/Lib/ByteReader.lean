import Mathlib.Algebra.Order.Ring.Nat
import Mathlib.Data.Nat.Digits.Defs
import Mathlib.Data.Nat.Digits.Lemmas
import Mathlib.Logic.Function.Basic
import Mathlib.Tactic.Common
import Mathlib.Tactic.Ring

/-! Readers of binary formats. A reader takes a value from the front of a byte string or fails; it decodes
a format if it accepts exactly what the format writes. What is shown of the parts of a format holds of
their sequence, of their repetition and of a choice by a tag. -/

namespace Kappai

abbrev ByteReader (β : Type) := StateT (List UInt8) Option β

namespace ByteReader

variable {α α' β β' : Type}

@[simp] theorem pure_apply (b : β) (s : List UInt8) : (pure b : ByteReader β) s = some (b, s) := rfl

theorem bind_apply (r : ByteReader β) (k : β → ByteReader β') (s : List UInt8) :
    (r >>= k) s = (r s).bind fun p => k p.1 p.2 := rfl

theorem bind_eq_some {r : ByteReader β} {k : β → ByteReader β'} {s rest : List UInt8} {b' : β'} :
    (r >>= k) s = some (b', rest) ↔ ∃ b t, r s = some (b, t) ∧ k b t = some (b', rest) := by
  rw [bind_apply, Option.bind_eq_some_iff]
  exact ⟨fun ⟨p, hr, hk⟩ => ⟨p.1, p.2, hr, hk⟩, fun ⟨b, t, hr, hk⟩ => ⟨(b, t), hr, hk⟩⟩

theorem map_apply (f : β → β') (r : ByteReader β) (s : List UInt8) :
    (f <$> r) s = (r s).map fun p => (f p.1, p.2) := by
  change (r s).bind _ = _
  cases r s <;> rfl

def fail : ByteReader β := fun _ => none

/-- Goes on where at least `n` bytes are left. -/
def checkLeft (n : ℕ) : ByteReader Unit := fun s => if n ≤ s.length then some ((), s) else none

/-- The next `n` bytes. -/
def takeBytes (n : ℕ) : ByteReader (List UInt8) := fun s =>
  if n ≤ s.length then some (s.take n, s.drop n) else none

/-- The reader, `n` times. -/
def many (r : ByteReader β) : ℕ → ByteReader (List β)
  | 0 => pure []
  | n + 1 => do
    let b ← r
    let bs ← many r n
    pure (b :: bs)

/-- `r` accepts what `write` makes of the contents with `ok`, and nothing else, and of a content it sees
what `view` gives. -/
def Decodes (r : ByteReader β) (ok : α → Prop) (write : α → List UInt8) (view : α → β) : Prop :=
  ∀ s b rest, r s = some (b, rest) ↔ ∃ a, ok a ∧ view a = b ∧ s = write a ++ rest

namespace Decodes

variable {r : ByteReader β} {ok : α → Prop} {write : α → List UInt8} {view : α → β}

theorem read (h : Decodes r ok write view) {a : α} (ha : ok a) (rest : List UInt8) :
    r (write a ++ rest) = some (view a, rest) := (h _ _ _).2 ⟨a, ha, rfl, rfl⟩

theorem pure (b : β) :
    Decodes (Pure.pure b : ByteReader β) (fun _ : Unit => True) (fun _ => []) fun _ => b := by
  intro s b' rest
  rw [pure_apply, Option.some.injEq, Prod.mk.injEq]
  exact ⟨fun ⟨hb, hs⟩ => ⟨(), trivial, hb, hs⟩, fun ⟨_, _, hb, hs⟩ => ⟨hb, hs⟩⟩

theorem fail (write : α → List UInt8) (view : α → β) :
    Decodes (ByteReader.fail : ByteReader β) (fun _ : α => False) write view := by
  intro s b rest
  refine ⟨fun h => ?_, fun ⟨_, hf, _⟩ => hf.elim⟩
  cases h

/-- One part after the other; the second may depend on what was seen of the first. -/
theorem bind {k : β → ByteReader β'} {ok' : β → α' → Prop} {write' : β → α' → List UInt8}
    {view' : β → α' → β'} (h : Decodes r ok write view)
    (hk : ∀ b, Decodes (k b) (ok' b) (write' b) (view' b)) :
    Decodes (r >>= k) (fun p : α × α' => ok p.1 ∧ ok' (view p.1) p.2)
      (fun p => write p.1 ++ write' (view p.1) p.2) fun p => view' (view p.1) p.2 := by
  intro s b' rest
  rw [bind_eq_some]
  constructor
  · rintro ⟨b, t, hr, hkb⟩
    obtain ⟨a, ha, rfl, rfl⟩ := (h _ _ _).1 hr
    obtain ⟨a', ha', rfl, rfl⟩ := (hk _ _ _ _).1 hkb
    exact ⟨(a, a'), ⟨ha, ha'⟩, rfl, by rw [List.append_assoc]⟩
  · rintro ⟨p, ⟨ha, ha'⟩, rfl, rfl⟩
    exact ⟨view p.1, write' (view p.1) p.2 ++ rest, by rw [List.append_assoc, h.read ha], (hk _).read ha' _⟩

theorem map (h : Decodes r ok write view) (f : β → β') :
    Decodes (f <$> r) ok write fun a => f (view a) := by
  intro s b' rest
  rw [map_apply, Option.map_eq_some_iff]
  constructor
  · rintro ⟨⟨b, t⟩, hr, hb⟩
    obtain ⟨a, ha, rfl, rfl⟩ := (h _ _ _).1 hr
    cases hb
    exact ⟨a, ha, rfl, rfl⟩
  · rintro ⟨a, ha, rfl, rfl⟩
    exact ⟨(view a, rest), h.read ha rest, rfl⟩

/-- The same format for contents of another shape. -/
theorem reshape {ok' : α' → Prop} {write' : α' → List UInt8} {view' : α' → β}
    (h : Decodes r ok write view) (f : α' → α) (hok : ∀ a', ok' a' → ok (f a'))
    (hsurj : ∀ a, ok a → ∃ a', f a' = a ∧ ok' a') (hwrite : ∀ a', ok' a' → write' a' = write (f a'))
    (hview : ∀ a', ok' a' → view' a' = view (f a')) : Decodes r ok' write' view' := by
  intro s b rest
  rw [h]
  constructor
  · rintro ⟨a, ha, rfl, rfl⟩
    obtain ⟨a', rfl, ha'⟩ := hsurj a ha
    exact ⟨a', ha', hview a' ha', by rw [hwrite a' ha']⟩
  · rintro ⟨a', ha', rfl, rfl⟩
    exact ⟨f a', hok a' ha', (hview a' ha').symm, by rw [hwrite a' ha']⟩

/-- A check of what was read. -/
theorem guard (h : Decodes r ok write view) (p : β → Prop) [DecidablePred p] :
    Decodes (r >>= fun b => if p b then Pure.pure b else ByteReader.fail) (fun a => ok a ∧ p (view a))
      write view := by
  intro s b rest
  rw [bind_eq_some]
  constructor
  · rintro ⟨b', t, hr, hp⟩
    obtain ⟨a, ha, rfl, rfl⟩ := (h _ _ _).1 hr
    split_ifs at hp with hpa
    · cases hp
      exact ⟨a, ⟨ha, hpa⟩, rfl, rfl⟩
    · cases hp
  · rintro ⟨a, ⟨ha, hpa⟩, rfl, rfl⟩
    refine ⟨view a, rest, h.read ha rest, ?_⟩
    rw [if_pos hpa]
    rfl

/-- A check of the bytes left that every content passes. -/
theorem checkLeft {n : ℕ} (h : Decodes r ok write view) (hn : ∀ a, ok a → n ≤ (write a).length) :
    Decodes (ByteReader.checkLeft n >>= fun _ => r) ok write view := by
  intro s b rest
  rw [bind_apply, ByteReader.checkLeft]
  split_ifs with hlen
  · exact h s b rest
  · refine ⟨fun hf => ?_, ?_⟩
    · cases hf
    rintro ⟨a, ha, rfl, rfl⟩
    refine absurd ?_ hlen
    rw [List.length_append]
    exact (hn a ha).trans (Nat.le_add_right _ _)

theorem takeBytes (n : ℕ) :
    Decodes (ByteReader.takeBytes n) (fun a : List UInt8 => a.length = n) id id := by
  intro s b rest
  rw [ByteReader.takeBytes]
  constructor
  · intro h
    split_ifs at h with hlen
    cases h
    exact ⟨s.take n, List.length_take_of_le hlen, rfl, (List.take_append_drop n s).symm⟩
  · rintro ⟨a, rfl, rfl, rfl⟩
    rw [if_pos (by rw [List.length_append]; exact Nat.le_add_right _ _)]
    simp

theorem many (h : Decodes r ok write view) (n : ℕ) :
    Decodes (ByteReader.many r n) (fun as : List α => as.length = n ∧ ∀ a ∈ as, ok a)
      (fun as => as.flatMap write) (fun as => as.map view) := by
  induction n with
  | zero =>
    refine (Decodes.pure []).reshape (fun _ => ()) (fun _ _ => trivial) (fun _ _ => ⟨[], rfl, rfl, by simp⟩)
      (fun as has => ?_) fun as has => ?_
    · rw [List.length_eq_zero_iff.1 has.1, List.flatMap_nil]
    · rw [List.length_eq_zero_iff.1 has.1, List.map_nil]
  | succ n ih =>
    intro s b rest
    rw [ByteReader.many, bind_eq_some]
    constructor
    · rintro ⟨c, t, hr, hk⟩
      obtain ⟨bs, u, hbs, hb⟩ := bind_eq_some.1 hk
      obtain ⟨a, ha, rfl, rfl⟩ := (h _ _ _).1 hr
      obtain ⟨as, ⟨hlen, has⟩, rfl, rfl⟩ := (ih _ _ _).1 hbs
      cases hb
      refine ⟨a :: as, ⟨by rw [List.length_cons, hlen], ?_⟩, rfl, ?_⟩
      · exact List.forall_mem_cons.2 ⟨ha, has⟩
      · change _ = (a :: as).flatMap write ++ rest
        rw [List.flatMap_cons, List.append_assoc]
    · rintro ⟨as, ⟨hlen, has⟩, rfl, rfl⟩
      cases as with
      | nil => cases hlen
      | cons a as =>
        obtain ⟨ha, has⟩ := List.forall_mem_cons.1 has
        refine ⟨view a, as.flatMap write ++ rest, ?_, bind_eq_some.2 ⟨as.map view, rest, ?_, rfl⟩⟩
        · change r ((a :: as).flatMap write ++ rest) = _
          rw [List.flatMap_cons, List.append_assoc, h.read ha]
        · exact ih.read ⟨Nat.succ.inj hlen, has⟩ rest

/-- A reader that agrees with one that decodes a format. -/
theorem congr {r' : ByteReader β} (h : Decodes r ok write view) (heq : ∀ s, r' s = r s) :
    Decodes r' ok write view := by
  intro s b rest
  rw [heq, h]

/-- What is accepted is a part of the bytes. -/
theorem length_le (h : Decodes r ok write view) {s rest : List UInt8} {b : β}
    (hr : r s = some (b, rest)) : rest.length ≤ s.length := by
  obtain ⟨a, -, -, rfl⟩ := (h _ _ _).1 hr
  rw [List.length_append]
  exact Nat.le_add_left _ _

end Decodes

/-! ### Little-endian numbers -/

/-- The number whose digits to base 256 are the bytes, the lowest first. -/
def leValue (bs : List UInt8) : ℕ := Nat.ofDigits 256 (bs.map UInt8.toNat)

/-- The lowest `w` digits of a number. -/
def leBytes : ℕ → ℕ → List UInt8
  | 0, _ => []
  | w + 1, n => UInt8.ofNat (n % 256) :: leBytes w (n / 256)

@[simp] theorem leValue_nil : leValue [] = 0 := rfl

@[simp] theorem leValue_cons (b : UInt8) (bs : List UInt8) :
    leValue (b :: bs) = b.toNat + 256 * leValue bs := by
  rw [leValue, List.map_cons, Nat.ofDigits_cons]
  rfl

@[simp] theorem length_leBytes (w n : ℕ) : (leBytes w n).length = w := by
  induction w generalizing n with
  | zero => rfl
  | succ w ih => rw [leBytes, List.length_cons, ih]

theorem leValue_lt (bs : List UInt8) : leValue bs < 256 ^ bs.length := by
  induction bs with
  | nil => exact Nat.one_pos
  | cons b bs ih =>
    have hb := b.toNat_lt
    rw [leValue_cons, List.length_cons, pow_succ]
    omega

theorem leValue_lt_two_pow {bs : List UInt8} (w : ℕ) (h : bs.length = w) : leValue bs < 2 ^ (8 * w) := by
  have hlt := leValue_lt bs
  rwa [h, show (256 : ℕ) = 2 ^ 8 from rfl, ← pow_mul] at hlt

theorem leValue_leBytes {w n : ℕ} (h : n < 256 ^ w) : leValue (leBytes w n) = n := by
  induction w generalizing n with
  | zero => exact (Nat.lt_one_iff.1 h).symm
  | succ w ih =>
    have hrest : n / 256 < 256 ^ w := by
      rw [Nat.div_lt_iff_lt_mul (by decide), ← pow_succ]
      exact h
    have hbyte : (UInt8.ofNat (n % 256)).toNat = n % 256 := by
      rw [UInt8.toNat_ofNat']
      omega
    rw [leBytes, leValue_cons, ih hrest, hbyte]
    omega

theorem leBytes_leValue (bs : List UInt8) : leBytes bs.length (leValue bs) = bs := by
  induction bs with
  | nil => rfl
  | cons b bs ih =>
    have hb := b.toNat_lt
    rw [List.length_cons, leBytes, leValue_cons, show (b.toNat + 256 * leValue bs) / 256 = leValue bs by omega,
      show (b.toNat + 256 * leValue bs) % 256 = b.toNat by omega, ih, UInt8.ofNat_toNat]

theorem leValue_append (bs cs : List UInt8) :
    leValue (bs ++ cs) = leValue bs + 256 ^ bs.length * leValue cs := by
  induction bs with
  | nil => simp
  | cons b bs ih =>
    rw [List.cons_append, leValue_cons, ih, leValue_cons, List.length_cons]
    ring

/-- The next `w` bytes as a number. -/
def leRead (w : ℕ) : ByteReader ℕ := fun s =>
  if w ≤ s.length then some (leValue (s.take w), s.drop w) else none

theorem decodes_leRead (w : ℕ) : Decodes (leRead w) (· < 256 ^ w) (leBytes w) id := by
  refine (((Decodes.takeBytes w).map leValue).congr fun s => ?_).reshape (leBytes w) (fun n _ => length_leBytes w n)
    (fun bs hbs => ⟨leValue bs, ?_, ?_⟩) (fun n _ => rfl) fun n hn => (leValue_leBytes hn).symm
  · rw [map_apply, leRead, takeBytes]
    split_ifs <;> rfl
  · rw [← hbs]
    exact leBytes_leValue bs
  · rw [← hbs]
    exact leValue_lt bs

/-- A reader of the numbers of `w` bytes, for a type with just these numbers. -/
theorem decodes_number {β : Type} {r : ByteReader β} {w : ℕ} {ofNat : ℕ → β} {toNat : β → ℕ}
    (hread : ∀ s, r s = (ofNat <$> leRead w) s) (hlt : ∀ b, toNat b < 256 ^ w)
    (hof : ∀ b, ofNat (toNat b) = b) (hto : ∀ n < 256 ^ w, toNat (ofNat n) = n) :
    Decodes r (fun _ : β => True) (fun b => leBytes w (toNat b)) id :=
  (((decodes_leRead w).map ofNat).congr hread).reshape toNat (fun b _ => hlt b)
    (fun n hn => ⟨ofNat n, hto n hn, trivial⟩) (fun _ _ => rfl) fun b _ => (hof b).symm

/-- The bytes put in one after the other, from the lowest on. -/
theorem foldl_or_shift (b : ℕ → UInt8) (w : ℕ) :
    (List.range w).foldl (fun v i => v ||| (b i).toNat <<< (8 * i)) 0 =
      leValue ((List.range w).map b) := by
  induction w with
  | zero => rfl
  | succ w ih =>
    have hlt : leValue ((List.range w).map b) < 2 ^ (8 * w) :=
      leValue_lt_two_pow w (by rw [List.length_map, List.length_range])
    rw [List.range_succ, List.foldl_append, List.foldl_cons, List.foldl_nil, ih, List.map_append,
      leValue_append, List.length_map, List.length_range, List.map_singleton, leValue_cons, leValue_nil,
      Nat.or_comm, ← Nat.shiftLeft_add_eq_or_of_lt hlt, Nat.shiftLeft_eq, pow_mul]
    ring

end ByteReader

end Kappai
