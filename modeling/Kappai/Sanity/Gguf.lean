import Kappai.Spec.Gguf

/-! What a model file says, how it is written, and that the readers accept exactly that. -/

namespace Kappai

namespace Gguf

open ByteReader

/-! ### The readers of numbers -/

section Numbers

variable (s : Text)

theorem ggufReaderU8_eq : ggufReaderU8 s = (UInt8.ofNat <$> leRead 1) s := by
  rw [map_apply, leRead]
  cases s with
  | nil => rfl
  | cons b s => simp [ggufReaderU8]

/-- A byte, moved up inside of a number of `w` bits. -/
theorem shifted_byte {w : ℕ} (b : UInt8) {i : ℕ} (h : 8 * i + 8 ≤ w) :
    b.toNat <<< (8 * i) % 2 ^ w = b.toNat <<< (8 * i) := by
  refine Nat.mod_eq_of_lt ?_
  have hb : b.toNat < 2 ^ 8 := b.toNat_lt
  calc b.toNat <<< (8 * i) = b.toNat * 2 ^ (8 * i) := Nat.shiftLeft_eq _ _
    _ < 2 ^ 8 * 2 ^ (8 * i) := Nat.mul_lt_mul_of_pos_right hb (Nat.two_pow_pos _)
    _ = 2 ^ (8 * i + 8) := by rw [← pow_add, Nat.add_comm]
    _ ≤ 2 ^ w := Nat.pow_le_pow_right Nat.two_pos h

theorem ggufReaderU16_eq : ggufReaderU16 s = (UInt16.ofNat <$> leRead 2) s := by
  rw [map_apply, leRead]
  rcases s with _ | ⟨b0, _ | ⟨b1, s⟩⟩
  · rfl
  · rfl
  · have hor := foldl_or_shift (fun i => [b0, b1].getD i 0) 2
    have h1 : b1.toNat <<< 8 % 65536 = b1.toNat <<< 8 := shifted_byte (w := 16) (i := 1) b1 (by decide)
    have hvalue : b0.toUInt16 ||| b1.toUInt16 <<< 8 = UInt16.ofNat (leValue [b0, b1]) := by
      rw [← UInt16.toNat_inj, UInt16.toNat_ofNat_of_lt' (leValue_lt_two_pow 2 rfl)]
      simpa [List.range_succ, h1] using hor
    rw [if_pos (by simp)]
    exact congrArg (fun v => some (v, s)) hvalue

theorem ggufReaderU32_eq : ggufReaderU32 s = (UInt32.ofNat <$> leRead 4) s := by
  rw [map_apply, leRead]
  rcases s with _ | ⟨b0, _ | ⟨b1, _ | ⟨b2, _ | ⟨b3, s⟩⟩⟩⟩
  · rfl
  · rfl
  · rfl
  · rfl
  · have hor := foldl_or_shift (fun i => [b0, b1, b2, b3].getD i 0) 4
    have h1 : b1.toNat <<< 8 % 4294967296 = b1.toNat <<< 8 :=
      shifted_byte (w := 32) (i := 1) b1 (by decide)
    have h2 : b2.toNat <<< 16 % 4294967296 = b2.toNat <<< 16 :=
      shifted_byte (w := 32) (i := 2) b2 (by decide)
    have h3 : b3.toNat <<< 24 % 4294967296 = b3.toNat <<< 24 :=
      shifted_byte (w := 32) (i := 3) b3 (by decide)
    have hvalue : b0.toUInt32 ||| b1.toUInt32 <<< 8 ||| b2.toUInt32 <<< 16 ||| b3.toUInt32 <<< 24 =
        UInt32.ofNat (leValue [b0, b1, b2, b3]) := by
      rw [← UInt32.toNat_inj, UInt32.toNat_ofNat_of_lt' (leValue_lt_two_pow 4 rfl)]
      simpa [List.range_succ, h1, h2, h3] using hor
    rw [if_pos (by simp)]
    exact congrArg (fun v => some (v, s)) hvalue

/-- The loop over the bytes of a number of 64 bits. -/
theorem orBytes_toNat (b : ℕ → UInt8) {w : ℕ} (hw : w ≤ 8) :
    ((List.range w).foldl (fun v i => v ||| (b i).toUInt64 <<< UInt64.ofNat (i * 8)) 0).toNat =
      leValue ((List.range w).map b) := by
  rw [← foldl_or_shift]
  induction w with
  | zero => rfl
  | succ w ih =>
    have hshift : (UInt64.ofNat (w * 8)).toNat % 64 = 8 * w := by
      rw [UInt64.toNat_ofNat']
      omega
    rw [List.range_succ, List.foldl_append, List.foldl_append, List.foldl_cons, List.foldl_cons,
      List.foldl_nil, List.foldl_nil, UInt64.toNat_or, ih (by omega), UInt64.toNat_shiftLeft, hshift,
      UInt8.toNat_toUInt64, shifted_byte (b w) (by omega)]

theorem ggufReaderU64_eq : ggufReaderU64 s = (UInt64.ofNat <$> leRead 8) s := by
  rw [map_apply, leRead, ggufReaderU64]
  by_cases hlen : s.length < 8
  · rw [if_pos hlen, if_neg (by omega)]
    rfl
  · have htake : (List.range 8).map (s.getD · 0) = s.take 8 := by
      refine List.ext_getElem (by simp; omega) fun i hi _ => ?_
      have hi8 : i < 8 := by simpa using hi
      simp [List.getD_eq_getElem?_getD, List.getElem?_eq_getElem (show i < s.length by omega)]
    have hlt : leValue (s.take 8) < 2 ^ 64 := leValue_lt_two_pow 8 (List.length_take_of_le (by omega))
    rw [if_neg hlen, if_pos (by omega)]
    refine congrArg (fun v => some (v, s.drop 8)) ?_
    rw [← UInt64.toNat_inj, orBytes_toNat (s.getD · 0) (Nat.le_refl 8), htake,
      UInt64.toNat_ofNat_of_lt' hlt]

end Numbers

theorem decodes_u8 : Decodes ggufReaderU8 (fun _ => True) (fun v => leBytes 1 v.toNat) id :=
  decodes_number ggufReaderU8_eq (fun v => v.toNat_lt) (fun _ => UInt8.ofNat_toNat)
    fun _ => UInt8.toNat_ofNat_of_lt'

theorem decodes_u16 : Decodes ggufReaderU16 (fun _ => True) (fun v => leBytes 2 v.toNat) id :=
  decodes_number ggufReaderU16_eq (fun v => v.toNat_lt) (fun _ => UInt16.ofNat_toNat)
    fun _ => UInt16.toNat_ofNat_of_lt'

theorem decodes_u32 : Decodes ggufReaderU32 (fun _ => True) (fun v => leBytes 4 v.toNat) id :=
  decodes_number ggufReaderU32_eq (fun v => v.toNat_lt) (fun _ => UInt32.ofNat_toNat)
    fun _ => UInt32.toNat_ofNat_of_lt'

theorem decodes_u64 : Decodes ggufReaderU64 (fun _ => True) (fun v => leBytes 8 v.toNat) id :=
  decodes_number ggufReaderU64_eq (fun v => v.toNat_lt) (fun _ => UInt64.ofNat_toNat)
    fun _ => UInt64.toNat_ofNat_of_lt'

/-- A text with its length before it. -/
def writeStr (s : Text) : Text := leBytes 8 s.length ++ s

@[simp] theorem length_writeStr (s : Text) : (writeStr s).length = 8 + s.length := by
  rw [writeStr, List.length_append, length_leBytes]

theorem decodes_str : Decodes ggufReaderStr (fun s : Text => s.length < 2 ^ 64) writeStr id := by
  refine (decodes_u64.bind fun n => Decodes.takeBytes n.toNat).reshape
    (fun s => (UInt64.ofNat s.length, s)) (fun s hs => ⟨trivial, ?_⟩) (fun p hp => ⟨p.2, ?_, ?_⟩)
    (fun s hs => ?_) fun s _ => rfl
  · exact (UInt64.toNat_ofNat_of_lt' hs).symm
  · refine Prod.ext ?_ rfl
    rw [hp.2]
    exact UInt64.ofNat_toNat
  · rw [hp.2]
    exact UInt64.toNat_lt _
  · rw [writeStr]
    change _ = leBytes 8 (UInt64.ofNat s.length).toNat ++ s
    rw [UInt64.toNat_ofNat_of_lt' hs]

end Gguf

end Kappai
