import Kappai.Spec.Png
import Mathlib.Tactic.NormNum
import Mathlib.Tactic.Ring

/-! A written PNG file is read back as the image it was written from. -/

namespace Kappai

namespace Png

open Polynomial

section Crc

theorem shiftOut_eq (c : BitVec 32) :
    shiftOut 0xedb88320 c = if c &&& 1 ≠ 0 then 0xedb88320 ^^^ (c >>> 1) else c >>> 1 := by
  have hbit : c.getLsbD 0 = true ↔ c &&& 1 ≠ 0 := by
    rw [show (1 : BitVec 32) = 1#32 from rfl, BitVec.and_one_eq_setWidth_ofBool_getLsbD]
    cases c.getLsbD 0 <;> decide
  rw [shiftOut]
  exact if_congr hbit rfl rfl

theorem crcTable_eq (n : BitVec 32) : crcTable n = crcEntry 0xedb88320 n := by
  have h : shiftOut 0xedb88320 = fun c : BitVec 32 =>
      if c &&& 1 ≠ 0 then 0xedb88320 ^^^ (c >>> 1) else c >>> 1 := funext shiftOut_eq
  rw [crcEntry, h]
  rfl

theorem crcUpdate_eq (crc : BitVec 32) (buf : Text) :
    crcUpdate crc buf = buf.foldl (crcStep 0xedb88320) crc := by
  simp only [crcUpdate, crcTable_eq]
  rfl

theorem crcGenerator_eq : crcGenerator (0xedb88320 : BitVec 32) = pngPoly := by
  rw [crcGenerator, regPoly, pngPoly]
  simp [Finset.sum_range_succ]
  ring

theorem regPoly_ones : regPoly (0xffffffff : BitVec 32) = ∑ i ∈ Finset.range 32, X ^ i := by
  rw [← Finset.sum_range_reflect, regPoly]
  refine Finset.sum_congr rfl fun i hi => ?_
  have hbit : ∀ i < 32, (0xffffffff : BitVec 32).getLsbD i = true := by decide
  rw [hbit i (Finset.mem_range.mp hi), if_pos rfl]

/-- The check of a chunk. -/
theorem isCrc32_update (type data : Text) :
    IsCrc32 (type ++ data) (crcUpdate (crcUpdate 0xffffffff type) data ^^^ 0xffffffff) := by
  have hnot : ∀ c : BitVec 32, ~~~(c ^^^ 0xffffffff) = c := by
    intro c
    rw [show (0xffffffff : BitVec 32) = BitVec.allOnes 32 from rfl, BitVec.xor_allOnes, BitVec.not_not]
  rw [IsCrc32, hnot, crcUpdate_eq, crcUpdate_eq, ← List.foldl_append, crcSteps_eq (by decide),
    crcRemainder, regPoly_ones, crcGenerator_eq]

end Crc

section Numbers

theorem readBe32_putBe32 (v : BitVec 32) (rest : Text) :
    readBe32 (putBe32 v ++ rest) = some (v.toNat, rest) := by
  have hbyte : ∀ x : BitVec 32, (byteOf x).toNat = x.toNat % 256 := fun x => BitVec.toNat_setWidth 8 x
  simp only [putBe32, List.cons_append, List.nil_append, readBe32, hbyte, BitVec.toNat_ushiftRight,
    Nat.shiftRight_eq_div_pow]
  have := v.isLt
  congr 2
  omega

@[simp] theorem length_putBe32 (v : BitVec 32) : (putBe32 v).length = 4 := rfl

theorem toNat_sizeByte (x : BitVec 64) : (sizeByte x).toNat = x.toNat % 256 := BitVec.toNat_setWidth 8 x

/-- The five bytes of a block: whether it is the last, its length and the complement of that. -/
theorem blockHeader_eq (fin : Bool) {len : ℕ} (h : len ≤ 65535) : ∃ l0 l1 n0 n1 : UInt8,
    blockHeader fin len = [if fin then 1 else 0, l0, l1, n0, n1] ∧ l0.toNat + 256 * l1.toNat = len ∧
      l0.toNat + n0.toNat = 255 ∧ l1.toNat + n1.toNat = 255 := by
  have hmask : ∀ x : BitVec 64, (x &&& 0xff).toNat = x.toNat % 256 := fun x => by
    rw [BitVec.toNat_and]
    exact Nat.and_two_pow_sub_one_eq_mod x.toNat 8
  have hlen : (BitVec.ofNat 64 len).toNat = len := by
    rw [BitVec.toNat_ofNat]
    omega
  refine ⟨_, _, _, _, rfl, ?_, ?_, ?_⟩
  · rw [toNat_sizeByte, toNat_sizeByte, hmask, BitVec.toNat_ushiftRight, Nat.shiftRight_eq_div_pow, hlen]
    omega
  · rw [toNat_sizeByte, toNat_sizeByte, hmask, hmask, BitVec.toNat_not, hlen]
    omega
  · rw [toNat_sizeByte, toNat_sizeByte, hmask, BitVec.toNat_ushiftRight, BitVec.toNat_ushiftRight,
      BitVec.toNat_not, Nat.shiftRight_eq_div_pow, Nat.shiftRight_eq_div_pow, hlen]
    omega

end Numbers

section Adler

/-- The sums over all bytes, nowhere reduced. -/
def adlerSums : ℕ → ℕ → Text → ℕ × ℕ
  | a, b, [] => (a, b)
  | a, b, d :: rest => adlerSums (a + d.toNat) (b + (a + d.toNat)) rest

theorem adlerSums_append (a b : ℕ) (front back : Text) : adlerSums a b (front ++ back) =
    adlerSums (adlerSums a b front).1 (adlerSums a b front).2 back := by
  induction front generalizing a b with
  | nil => rfl
  | cons d front ih => exact ih _ _

theorem adlerSums_modEq {m a a' b b' : ℕ} (ha : a ≡ a' [MOD m]) (hb : b ≡ b' [MOD m]) (buf : Text) :
    (adlerSums a b buf).1 ≡ (adlerSums a' b' buf).1 [MOD m] ∧
      (adlerSums a b buf).2 ≡ (adlerSums a' b' buf).2 [MOD m] := by
  induction buf generalizing a a' b b' with
  | nil => exact ⟨ha, hb⟩
  | cons d buf ih => exact ih (ha.add_right _) (hb.add (ha.add_right _))

theorem adlerSums_eq (a b : ℕ) (buf : Text) : adlerSums a b buf =
    (a + (buf.map UInt8.toNat).sum,
      b + ((List.range buf.length).map fun i => a + ((buf.take (i + 1)).map UInt8.toNat).sum).sum) := by
  induction buf generalizing a b with
  | nil => rfl
  | cons d buf ih =>
    rw [adlerSums, ih, List.length_cons, List.range_succ_eq_map, List.map_cons, List.sum_cons,
      List.map_cons, List.map_map, List.sum_cons]
    simp only [Function.comp_def, List.take_succ_cons, List.map_cons, List.sum_cons, List.take_zero,
      List.map_nil, List.sum_nil, Nat.add_assoc, Nat.add_zero]

/-- The sums of a chunk fit if those of bytes that are all 255 would. -/
theorem adlerChunk_eq {a b : ℕ} (buf : Text)
    (h : 2 * b + buf.length * (2 * a + 255 * (buf.length + 1)) < 2 ^ 33) :
    a + 255 * buf.length < 2 ^ 32 → adlerChunk a b buf = some (adlerSums a b buf) := by
  induction buf generalizing a b with
  | nil => exact fun _ => rfl
  | cons d buf ih =>
    intro ha
    rw [List.length_cons] at h ha
    have hd : d.toNat ≤ 255 := Nat.le_of_lt_succ d.toNat_lt
    have hprod := Nat.mul_le_mul_left (buf.length + 1) hd
    have hnext : 2 * (b + (a + d.toNat)) +
        buf.length * (2 * (a + d.toNat) + 255 * (buf.length + 1)) < 2 ^ 33 := by
      nlinarith
    have hsum : b + (a + d.toNat) < 2 ^ 32 := by
      have := Nat.zero_le (buf.length * (2 * (a + d.toNat) + 255 * (buf.length + 1)))
      omega
    rw [adlerChunk, add32, if_pos (by omega), Option.bind_some, add32, if_pos hsum, Option.bind_some,
      adlerSums]
    exact ih hnext (by omega)

/-- The reductions come often enough, and change nothing that matters. -/
theorem adlerLoop_spec (fuel a b : ℕ) (buf : Text) (ha : a ≤ 65520) (hb : b ≤ 65520)
    (hfuel : buf.length < fuel) : ∃ s, adlerLoop fuel a b buf = some s ∧
      s.1 = (adlerSums a b buf).1 % 65521 ∧ s.2 = (adlerSums a b buf).2 % 65521 := by
  induction fuel generalizing a b buf with
  | zero => exact absurd hfuel (Nat.not_lt_zero _)
  | succ fuel ih =>
    rw [adlerLoop]
    split_ifs with hlen
    · simp only
      set chunk := min buf.length adlerNmax with hchunk
      have hn : (buf.take chunk).length = chunk := by
        rw [List.length_take]
        exact Nat.min_eq_left (Nat.min_le_left _ _)
      have hmax : chunk ≤ 5552 := Nat.min_le_right _ _
      have hfit := adlerChunk_eq (a := a) (b := b) (buf.take chunk) (by
        rw [hn]
        have h1 : chunk * (2 * a + 255 * (chunk + 1)) ≤ 5552 * (2 * 65520 + 255 * (5552 + 1)) :=
          Nat.mul_le_mul hmax (by omega)
        omega) (by rw [hn]; omega)
      have hpos : 0 < chunk := by
        rw [hchunk]
        exact Nat.lt_min.mpr ⟨hlen, by decide⟩
      rw [hfit, Option.bind_some]
      obtain ⟨s, hs, hs1, hs2⟩ := ih ((adlerSums a b (buf.take chunk)).1 % adlerMod)
        ((adlerSums a b (buf.take chunk)).2 % adlerMod) (buf.drop chunk)
        (Nat.le_of_lt_succ (Nat.mod_lt _ (by decide))) (Nat.le_of_lt_succ (Nat.mod_lt _ (by decide)))
        (by rw [List.length_drop]; omega)
      have hmod := adlerSums_modEq (m := adlerMod) (Nat.mod_modEq (adlerSums a b (buf.take chunk)).1 _)
        (Nat.mod_modEq (adlerSums a b (buf.take chunk)).2 _) (buf.drop chunk)
      rw [← adlerSums_append, List.take_append_drop] at hmod
      exact ⟨s, hs, hs1.trans hmod.1, hs2.trans hmod.2⟩
    · obtain rfl := List.length_eq_zero_iff.mp (Nat.eq_zero_of_not_pos hlen)
      exact ⟨(a, b), rfl, (Nat.mod_eq_of_lt (show a < 65521 by omega)).symm,
        (Nat.mod_eq_of_lt (show b < 65521 by omega)).symm⟩

/-- The checksum has no overflow and is the one that the sums define. -/
theorem adler32_eq (buf : Text) :
    adler32 buf = some (BitVec.ofNat 32 (adlerB buf * 65536 + adlerA buf)) := by
  obtain ⟨s, hs, h1, h2⟩ := adlerLoop_spec (buf.length + 1) 1 0 buf (by decide) (by decide)
    (Nat.lt_succ_self _)
  rw [adlerSums_eq, Nat.zero_add] at h2
  rw [adlerSums_eq] at h1
  have ha : s.1 < 65521 := h1 ▸ Nat.mod_lt _ (by decide)
  have hb : s.2 < 65521 := h2 ▸ Nat.mod_lt _ (by decide)
  rw [adler32, hs, Option.map_some, adlerA, adlerB, ← h1, ← h2]
  congr 1
  refine BitVec.eq_of_toNat_eq ?_
  rw [BitVec.toNat_or, BitVec.toNat_shiftLeft, BitVec.toNat_ofNat, BitVec.toNat_ofNat,
    BitVec.toNat_ofNat, Nat.shiftLeft_eq, Nat.mod_eq_of_lt (show s.2 < 2 ^ 32 by omega),
    Nat.mod_eq_of_lt (show s.1 < 2 ^ 32 by omega),
    Nat.mod_eq_of_lt (show s.2 * 2 ^ 16 < 2 ^ 32 by omega),
    Nat.mod_eq_of_lt (show s.2 * 65536 + s.1 < 2 ^ 32 by omega), Nat.mul_comm s.2 (2 ^ 16),
    ← Nat.two_pow_add_eq_or_of_lt (show s.1 < 2 ^ 16 by omega), Nat.mul_comm]

end Adler

section Stored

theorem length_blockHeader (fin : Bool) (len : ℕ) : (blockHeader fin len).length = 5 := rfl

/-- How many blocks a rest of `n` bytes takes. -/
def blockCount (n : ℕ) : ℕ := (n + deflateStoredMax - 1) / deflateStoredMax

theorem blockCount_pos {n : ℕ} (h : 0 < n) : 0 < blockCount n := by
  rw [blockCount, deflateStoredMax]
  omega

theorem blockCount_add (n : ℕ) : blockCount (n + deflateStoredMax) = blockCount n + 1 := by
  rw [blockCount, blockCount, deflateStoredMax]
  omega

theorem put_eq {cap : ℕ} {out bytes : Text} (h : out.length + bytes.length ≤ cap) :
    put cap out bytes = some (out ++ bytes) := if_pos h

/-- Blocks that are not the last. -/
def moreBlocks (front : List Text) : Text := front.flatMap fun b => blockHeader false b.length ++ b

/-- The loop writes the rest of the data in blocks, as long as they fit. -/
theorem storedBlocks_spec (cap : ℕ) (raw : Text) (fuel off : ℕ) (out : Text) (hoff : off < raw.length)
    (hfuel : blockCount (raw.length - off) ≤ fuel)
    (hcap : out.length + (raw.length - off) + 5 * blockCount (raw.length - off) ≤ cap) :
    ∃ front last, raw.drop off = front.flatten ++ last ∧ (∀ b ∈ front ++ [last], b.length ≤ 65535) ∧
      front.length + 1 = blockCount (raw.length - off) ∧
      storedBlocks cap raw fuel off out =
        some (out ++ moreBlocks front ++ (blockHeader true last.length ++ last)) := by
  induction fuel generalizing off out with
  | zero =>
    have := blockCount_pos (Nat.sub_pos_of_lt hoff)
    omega
  | succ fuel ih =>
    have hpos := blockCount_pos (Nat.sub_pos_of_lt hoff)
    rw [storedBlocks, if_pos (.inl hoff)]
    simp only
    by_cases hlast : raw.length - off ≤ deflateStoredMax
    · have hlen : (raw.drop off).length = raw.length - off := List.length_drop
      rw [Nat.min_eq_left hlast, decide_eq_true (show off + (raw.length - off) ≥ raw.length by omega),
        put_eq (by rw [length_blockHeader]; omega), Option.bind_some,
        List.take_of_length_le hlen.le,
        put_eq (by rw [List.length_append, length_blockHeader, hlen]; omega), Option.bind_some, if_pos rfl]
      refine ⟨[], raw.drop off, rfl, ?_, ?_, ?_⟩
      · exact List.forall_mem_singleton.mpr (hlen.trans_le hlast)
      · have hle : blockCount (raw.length - off) ≤ blockCount deflateStoredMax :=
          Nat.div_le_div_right (by omega)
        have hone : blockCount deflateStoredMax = 1 := rfl
        rw [List.length_nil]
        omega
      · rw [moreBlocks, List.flatMap_nil, List.append_nil, hlen, List.append_assoc]
    · have hlen : ((raw.drop off).take deflateStoredMax).length = deflateStoredMax := by
        rw [List.length_take, List.length_drop]
        omega
      obtain ⟨n, hn⟩ : ∃ n, raw.length - off = n + deflateStoredMax :=
        ⟨raw.length - off - deflateStoredMax, by omega⟩
      have hrest : raw.length - (off + deflateStoredMax) = n := by omega
      rw [hn, blockCount_add] at hfuel hcap
      have hmax : deflateStoredMax = 65535 := rfl
      rw [Nat.min_eq_right (by omega), decide_eq_false (show ¬off + deflateStoredMax ≥ raw.length by omega),
        put_eq (by rw [length_blockHeader]; omega), Option.bind_some,
        put_eq (by rw [List.length_append, length_blockHeader, hlen]; omega), Option.bind_some,
        if_neg Bool.false_ne_true]
      obtain ⟨front, last, hsplit, hshort, hcount, hrun⟩ := ih (off + deflateStoredMax)
        (out ++ blockHeader false deflateStoredMax ++ (raw.drop off).take deflateStoredMax)
        (by omega) (by rw [hrest]; omega)
        (by
          rw [hrest, List.length_append, List.length_append, length_blockHeader, hlen]
          omega)
      refine ⟨(raw.drop off).take deflateStoredMax :: front, last, ?_, ?_, ?_, ?_⟩
      · rw [List.flatten_cons, List.append_assoc, ← hsplit, ← List.drop_drop, List.take_append_drop]
      · exact List.forall_mem_cons.mpr ⟨hlen.le, hshort⟩
      · rw [List.length_cons, hn, blockCount_add, hcount, hrest]
      · rw [hrun, moreBlocks, moreBlocks, List.flatMap_cons, hlen]
        simp only [List.append_assoc]

theorem moreBlocks_cons (b : Text) (front : List Text) :
    moreBlocks (b :: front) = blockHeader false b.length ++ b ++ moreBlocks front := List.flatMap_cons

theorem length_moreBlocks (front : List Text) :
    (moreBlocks front).length = front.flatten.length + 5 * front.length := by
  induction front with
  | nil => rfl
  | cons b front ih =>
    rw [moreBlocks_cons, List.length_append, ih, List.length_append, length_blockHeader,
      List.flatten_cons, List.length_append, List.length_cons]
    omega

/-- The stream has its parts, fills its buffer and does not go past it. -/
theorem zlibStored_spec {raw : Text} (h : 0 < raw.length) : ∃ z, zlibStored raw = some z ∧
    StoredStream raw z ∧ z.length = raw.length + 5 * blockCount raw.length + 6 := by
  obtain ⟨front, last, hsplit, hshort, hblocks, hrun⟩ := storedBlocks_spec
    (2 + raw.length + blockCount raw.length * 5 + 4) raw (blockCount raw.length + 1) 0 [0x78, 0x01] h (Nat.le_succ _) (by
      rw [Nat.sub_zero, List.length_cons, List.length_cons, List.length_nil]
      omega)
  rw [List.drop_zero] at hsplit
  rw [Nat.sub_zero] at hblocks
  have hraw : raw.length = front.flatten.length + last.length := by rw [hsplit, List.length_append]
  have hlen : ([0x78, 0x01] ++ moreBlocks front ++ (blockHeader true last.length ++ last)).length =
      raw.length + 5 * blockCount raw.length + 2 := by
    rw [List.length_append, List.length_append, length_moreBlocks, List.length_append,
      length_blockHeader, List.length_cons, List.length_cons, List.length_nil]
    omega
  refine ⟨_, ?_, ⟨front, last, hsplit, hshort, rfl⟩, ?_⟩
  · have hdef : zlibStored raw =
        (put (2 + raw.length + blockCount raw.length * 5 + 4) [] [0x78, 0x01]).bind fun out =>
          (storedBlocks (2 + raw.length + blockCount raw.length * 5 + 4) raw
            (blockCount raw.length + 1) 0 out).bind fun out =>
          (adler32 raw).bind fun sum =>
            put (2 + raw.length + blockCount raw.length * 5 + 4) out (putBe32 sum) := rfl
    rw [hdef, put_eq (by rw [List.length_nil, List.length_cons, List.length_cons, List.length_nil]; omega),
      Option.bind_some, List.nil_append, hrun, Option.bind_some, adler32_eq, Option.bind_some,
      put_eq (by rw [hlen, length_putBe32]; omega)]
    rfl
  · rw [List.length_append, length_putBe32]
    change ([0x78, 0x01] ++ moreBlocks front ++ (blockHeader true last.length ++ last)).length + 4 = _
    rw [hlen]

/-- The blocks are read back. -/
theorem inflateStored_blocks (front : List Text) (last tail : Text) (fuel : ℕ)
    (hshort : ∀ b ∈ front ++ [last], b.length ≤ 65535) (hfuel : front.length < fuel) :
    inflateStored fuel (moreBlocks front ++ (blockHeader true last.length ++ last) ++ tail) =
      some (front.flatten ++ last, tail) := by
  induction front generalizing fuel with
  | nil =>
    obtain ⟨fuel, rfl⟩ := Nat.exists_eq_succ_of_ne_zero (Nat.pos_iff_ne_zero.mp hfuel)
    obtain ⟨l0, l1, n0, n1, hheader, hlen, hn0, hn1⟩ :=
      blockHeader_eq true (hshort last (List.mem_singleton_self _))
    have hbytes : moreBlocks [] ++ (blockHeader true last.length ++ last) ++ tail =
        1 :: l0 :: l1 :: n0 :: n1 :: (last ++ tail) := by
      rw [hheader]
      rfl
    rw [hbytes, inflateStored]
    rw [hlen, if_pos ⟨by decide, hn0, hn1, by rw [List.length_append]; omega⟩, if_pos (by decide),
      List.take_left, List.drop_left]
    rfl
  | cons b front ih =>
    obtain ⟨fuel, rfl⟩ := Nat.exists_eq_succ_of_ne_zero (Nat.pos_iff_ne_zero.mp (Nat.zero_lt_of_lt hfuel))
    obtain ⟨l0, l1, n0, n1, hheader, hlen, hn0, hn1⟩ :=
      blockHeader_eq false (hshort b List.mem_cons_self)
    have hrest := ih fuel (fun c hc => hshort c (List.mem_cons_of_mem _ hc)) (by
      rw [List.length_cons] at hfuel
      omega)
    have hbytes : moreBlocks (b :: front) ++ (blockHeader true last.length ++ last) ++ tail =
        0 :: l0 :: l1 :: n0 :: n1 ::
          (b ++ (moreBlocks front ++ (blockHeader true last.length ++ last) ++ tail)) := by
      rw [moreBlocks_cons, hheader]
      simp only [List.append_assoc, List.cons_append, List.nil_append, Bool.false_eq_true, if_false]
    rw [hbytes, inflateStored]
    rw [hlen, if_pos ⟨by decide, hn0, hn1, by rw [List.length_append]; omega⟩, if_neg (by decide),
      List.take_left, List.drop_left, hrest, Option.map_some, List.flatten_cons, List.append_assoc]

/-- A stream of stored blocks is read back. -/
theorem readZlib_stored {raw z : Text} (h : StoredStream raw z) : readZlib z = some raw := by
  obtain ⟨front, last, hraw, hshort, rfl⟩ := h
  set sum := putBe32 (BitVec.ofNat 32 (adlerB raw * 65536 + adlerA raw)) with hsum
  change readZlib ([0x78, 0x01] ++ moreBlocks front ++ (blockHeader true last.length ++ last) ++ sum) = _
  have hfuel : front.length <
      (moreBlocks front ++ (blockHeader true last.length ++ last) ++ sum).length := by
    rw [List.length_append, List.length_append, length_moreBlocks, List.length_append,
      length_blockHeader]
    omega
  have hinflate := inflateStored_blocks front last sum _ hshort hfuel
  rw [← hraw] at hinflate
  have ha : adlerA raw < 65521 := Nat.mod_lt _ (by decide)
  have hb : adlerB raw < 65521 := Nat.mod_lt _ (by decide)
  have hread := readBe32_putBe32 (BitVec.ofNat 32 (adlerB raw * 65536 + adlerA raw)) []
  rw [List.append_nil, ← hsum, BitVec.toNat_ofNat, Nat.mod_eq_of_lt (by omega)] at hread
  have hbytes : [0x78, 0x01] ++ moreBlocks front ++ (blockHeader true last.length ++ last) ++ sum =
      0x78 :: 0x01 :: (moreBlocks front ++ (blockHeader true last.length ++ last) ++ sum) := rfl
  rw [hbytes, readZlib, if_pos (by decide), hinflate, Option.bind_some, hread, Option.bind_some,
    if_pos ⟨rfl, rfl⟩]

end Stored

section Chunks

theorem isChunk_writeChunk {type data : Text} (h : data.length < 2 ^ 32) :
    IsChunk type data (writeChunk type data) := ⟨_, isCrc32_update type data, h, rfl⟩

/-- A chunk is read back where its length is allowed. -/
theorem readChunk_of_isChunk {limit : ℕ} {type data chunk : Text} (h : IsChunk type data chunk)
    (htype : type.length = 4) (hlimit : data.length ≤ limit) (rest : Text) :
    readChunk limit (chunk ++ rest) = some ((type, data), rest) := by
  obtain ⟨crc, hcrc, hlen, rfl⟩ := h
  have hbytes : putBe32 (BitVec.ofNat 32 data.length) ++ type ++ data ++ putBe32 crc ++ rest =
      putBe32 (BitVec.ofNat 32 data.length) ++ (type ++ (data ++ (putBe32 crc ++ rest))) := by
    simp only [List.append_assoc]
  have hread := readBe32_putBe32 (BitVec.ofNat 32 data.length) (type ++ (data ++ (putBe32 crc ++ rest)))
  rw [BitVec.toNat_ofNat, Nat.mod_eq_of_lt hlen] at hread
  have htake : (type ++ (data ++ (putBe32 crc ++ rest))).take 4 = type := htype ▸ List.take_left
  have hdrop : (type ++ (data ++ (putBe32 crc ++ rest))).drop 4 = data ++ (putBe32 crc ++ rest) :=
    htype ▸ List.drop_left
  rw [hbytes, readChunk, hread, Option.bind_some]
  simp only
  rw [if_pos ⟨hlimit, by rw [List.length_append, htype, List.length_append]; omega⟩, htake,
    ← List.drop_drop, hdrop, List.take_left, List.drop_left, readBe32_putBe32, Option.bind_some]
  simp only
  rw [BitVec.ofNat_toNat, BitVec.setWidth_eq, if_pos hcrc]

/-- A chunk that is longer than the limit is not read. -/
theorem readChunk_of_long {limit : ℕ} {type data chunk : Text} (h : IsChunk type data chunk)
    (hlimit : limit < data.length) (rest : Text) : readChunk limit (chunk ++ rest) = none := by
  obtain ⟨crc, -, hlen, rfl⟩ := h
  have hread := readBe32_putBe32 (BitVec.ofNat 32 data.length) (type ++ (data ++ (putBe32 crc ++ rest)))
  rw [BitVec.toNat_ofNat, Nat.mod_eq_of_lt hlen] at hread
  have hbytes : putBe32 (BitVec.ofNat 32 data.length) ++ type ++ data ++ putBe32 crc ++ rest =
      putBe32 (BitVec.ofNat 32 data.length) ++ (type ++ (data ++ (putBe32 crc ++ rest))) := by
    simp only [List.append_assoc]
  rw [hbytes, readChunk, hread, Option.bind_some, if_neg fun h => Nat.not_le.mpr hlimit h.1]

theorem isChunk_ne_nil {type data chunk : Text} (h : IsChunk type data chunk) (rest : Text) :
    chunk ++ rest ≠ [] := by
  obtain ⟨crc, -, -, rfl⟩ := h
  simp [putBe32]

theorem readChunks_cons {limit fuel : ℕ} {type data chunk : Text} (rest : Text)
    (h : IsChunk type data chunk) (htype : type.length = 4) (hlimit : data.length ≤ limit) :
    readChunks limit (fuel + 1) (chunk ++ rest) =
      (readChunks limit fuel rest).map ((type, data) :: ·) := by
  rw [readChunks, if_neg (isChunk_ne_nil h rest), readChunk_of_isChunk h htype hlimit, Option.bind_some]

end Chunks

section Rows

/-- The rows are read back. -/
theorem readRows_rows (pixels : Text) (rowBytes height y : ℕ)
    (h : (y + height) * rowBytes ≤ pixels.length) :
    readRows rowBytes height ((List.range' y height).flatMap fun y =>
      0 :: (pixels.drop (y * rowBytes)).take rowBytes) =
        some ((pixels.drop (y * rowBytes)).take (height * rowBytes)) := by
  induction height generalizing y with
  | zero =>
    rw [Nat.zero_mul, List.take_zero]
    rfl
  | succ height ih =>
    have hrow : ((pixels.drop (y * rowBytes)).take rowBytes).length = rowBytes := by
      rw [List.length_take, List.length_drop]
      have : (y + (height + 1)) * rowBytes = y * rowBytes + (height * rowBytes + rowBytes) := by ring
      omega
    have hrest := ih (y + 1) (by rwa [Nat.add_assoc, Nat.add_comm 1 height])
    rw [List.range'_succ, List.flatMap_cons, List.cons_append, readRows,
      if_pos (by rw [List.length_append, hrow]; omega)]
    rw [List.take_left' hrow, List.drop_left' hrow, hrest, Option.map_some, Nat.succ_mul height, Nat.add_comm (height * rowBytes),
      List.take_add, List.drop_drop, Nat.succ_mul]

end Rows

end Png

namespace DiffusionImage

open Png

variable (img : DiffusionImage)

/-- What a reader finds in the file of an image. -/
def contents : ℕ × ℕ × ℕ × Text := (img.width, img.height, img.channels, img.pixels)

theorem pixels_length : img.pixels.length = img.height * img.rowBytes := by
  rw [img.size, rowBytes, Nat.mul_comm]

theorem filtered_length : img.filtered.length = (img.rowBytes + 1) * img.height := by
  have hrow : ∀ y ∈ List.range img.height,
      (0 :: (img.pixels.drop (y * img.rowBytes)).take img.rowBytes).length = img.rowBytes + 1 := by
    intro y hy
    have hle : (y + 1) * img.rowBytes ≤ img.height * img.rowBytes :=
      Nat.mul_le_mul_right _ (List.mem_range.mp hy)
    rw [Nat.succ_mul] at hle
    rw [List.length_cons, List.length_take, List.length_drop, pixels_length]
    omega
  rw [filtered, List.length_flatMap, List.map_congr_left hrow, List.map_const', List.sum_replicate,
    List.length_range, smul_eq_mul, Nat.mul_comm]

theorem readRows_filtered : readRows img.rowBytes img.height img.filtered = some img.pixels := by
  have h := readRows_rows img.pixels img.rowBytes img.height 0 (by rw [Nat.zero_add, pixels_length])
  rw [Nat.zero_mul, List.drop_zero, ← pixels_length, List.take_length] at h
  rw [filtered, List.range_eq_range']
  exact h

theorem readIhdr_ihdr (hwidth : 0 < img.width) (hwidth' : img.width < 2 ^ 31) (hheight : 0 < img.height)
    (hheight' : img.height < 2 ^ 31) (hchannels : img.channels = 3 ∨ img.channels = 4) :
    readIhdr img.ihdr = some (img.width, img.height, img.channels) := by
  rw [readIhdr, ihdr, List.append_assoc, readBe32_putBe32, Option.bind_some, readBe32_putBe32,
    Option.bind_some, BitVec.toNat_ofNat, BitVec.toNat_ofNat, Nat.mod_eq_of_lt (by omega),
    Nat.mod_eq_of_lt (by omega), if_pos ⟨hwidth, hwidth', hheight, hheight'⟩]
  rcases hchannels with h | h
  · rw [h]
    rfl
  · rw [h]
    rfl

/-- The chunks of a file. -/
theorem readChunks_file {limit fuel : ℕ} {z c1 c2 c3 : Text} (h1 : IsChunk ihdrType img.ihdr c1)
    (h2 : IsChunk idatType z c2) (h3 : IsChunk iendType [] c3) (hlimit : 13 ≤ limit)
    (hz : z.length ≤ limit) : readChunks limit (fuel + 4) (c1 ++ c2 ++ c3) =
      some [(ihdrType, img.ihdr), (idatType, z), (iendType, [])] := by
  have h3' : readChunks limit (fuel + 1 + 1) (c3 ++ []) = _ :=
    readChunks_cons [] h3 rfl (Nat.zero_le _)
  rw [List.append_nil] at h3'
  rw [List.append_assoc, readChunks_cons _ h1 rfl hlimit, readChunks_cons _ h2 rfl hz, h3', readChunks,
    if_pos rfl]
  rfl

/-- A written file has the bytes of its chunks, the image data in stored blocks, and is read back as its
image; where the image data is shorter than 2^31 bytes all of it is as the format allows. -/
theorem writePngFile_spec (hwidth : 0 < img.width) (hheight : 0 < img.height)
    (hchannels : img.channels = 3 ∨ img.channels = 4) (hlen : img.filtered.length < 2 ^ 31 - 2 ^ 16) :
    ∃ z file, zlibStored img.filtered = some z ∧ StoredStream img.filtered z ∧
      z.length = img.filtered.length + 5 * ((img.filtered.length + 65534) / 65535) + 6 ∧
      img.writePngFile = some file ∧
      (∃ c1 c2 c3, IsChunk ihdrType img.ihdr c1 ∧ IsChunk idatType z c2 ∧ IsChunk iendType [] c3 ∧
        file = sig ++ c1 ++ c2 ++ c3) ∧
      readPng (2 ^ 32 - 1) file = some img.contents ∧
      (z.length < 2 ^ 31 → readPng (2 ^ 31 - 1) file = some img.contents) := by
  have hfiltered := img.filtered_length
  have hrow : img.width ≤ img.rowBytes := Nat.le_mul_of_pos_right _ (by omega)
  have hwidth' : img.width < 2 ^ 31 := by
    have := Nat.le_mul_of_pos_right (img.rowBytes + 1) hheight
    omega
  have hheight' : img.height < 2 ^ 31 := by
    have := Nat.le_mul_of_pos_left img.height (show 0 < img.rowBytes + 1 by omega)
    omega
  have hpos : 0 < img.filtered.length := by
    rw [hfiltered]
    exact Nat.mul_pos (Nat.succ_pos _) hheight
  obtain ⟨z, hz, hstored, hzlen⟩ := zlibStored_spec hpos
  rw [blockCount, show deflateStoredMax = 65535 from rfl] at hzlen
  have hz32 : z.length < 2 ^ 32 := by omega
  have hihdr : img.ihdr.length = 13 := rfl
  have h1 : IsChunk ihdrType img.ihdr (writeChunk ihdrType img.ihdr) :=
    isChunk_writeChunk (by rw [hihdr]; decide)
  have h2 : IsChunk idatType z (writeChunk idatType z) := isChunk_writeChunk hz32
  have h3 : IsChunk iendType [] (writeChunk iendType []) := isChunk_writeChunk (by decide)
  have hread : ∀ limit, 13 ≤ limit → z.length ≤ limit →
      readPng limit (sig ++ writeChunk ihdrType img.ihdr ++ writeChunk idatType z ++
        writeChunk iendType []) = some img.contents := by
    intro limit hlimit hzlimit
    set file := sig ++ writeChunk ihdrType img.ihdr ++ writeChunk idatType z ++ writeChunk iendType []
      with hfile
    have hsplit : file = sig ++ (writeChunk ihdrType img.ihdr ++ writeChunk idatType z ++
        writeChunk iendType []) := by
      rw [hfile]
      simp only [List.append_assoc]
    obtain ⟨fuel, hfuel⟩ : ∃ fuel, file.length = fuel + 4 :=
      ⟨file.length - 4, by rw [hsplit, List.length_append, show sig.length = 8 from rfl]; omega⟩
    have hchunks : readChunks limit file.length (file.drop 8) =
        some [(ihdrType, img.ihdr), (idatType, z), (iendType, [])] := by
      rw [hfuel, hsplit]
      exact img.readChunks_file h1 h2 h3 hlimit hzlimit
    rw [readPng, if_pos (by rw [hsplit]; rfl), hchunks, Option.bind_some]
    simp only
    rw [if_pos ⟨trivial, rfl, List.forall_mem_singleton.mpr rfl⟩,
      img.readIhdr_ihdr hwidth hwidth' hheight hheight' hchannels, Option.bind_some]
    change (readZlib ([z].flatten)).bind _ = _
    rw [List.flatten_singleton, readZlib_stored hstored, Option.bind_some]
    change (readRows img.rowBytes img.height img.filtered).map _ = _
    rw [img.readRows_filtered]
    rfl
  exact ⟨z, _, hz, hstored, hzlen, by rw [writePngFile, hz]; rfl, ⟨_, _, _, h1, h2, h3, rfl⟩,
    hread _ (by decide) (by omega), fun h => hread _ (by decide) (by omega)⟩

theorem writePngFile_spec_of_dot : ∃ file,
    (⟨1, 1, 3, [10, 20, 30], rfl⟩ : DiffusionImage).writePngFile = some file ∧
      readPng (2 ^ 31 - 1) file = some (1, 1, 3, [10, 20, 30]) := by
  obtain ⟨z, file, -, -, hz, hfile, -, -, hread⟩ :=
    writePngFile_spec ⟨1, 1, 3, [10, 20, 30], rfl⟩ (by decide) (by decide) (by decide) (by decide)
  exact ⟨file, hfile, hread (by rw [hz]; decide)⟩

/-- One row of 536854527 pixels of four channels. -/
def longRow : DiffusionImage where
  width := 536854527
  height := 1
  channels := 4
  pixels := List.replicate 2147418108 0
  size := List.length_replicate

/-- The headers of the blocks can make the image data longer than the 2^31 - 1 bytes that a chunk may
have. -/
theorem writePngFile_longRow : longRow.filtered.length < 2 ^ 31 - 2 ^ 16 ∧
    ∃ file, longRow.writePngFile = some file ∧ readPng (2 ^ 31 - 1) file = none := by
  have hlen : longRow.filtered.length = 2147418109 := longRow.filtered_length
  obtain ⟨z, hz, -, hzlen⟩ := zlibStored_spec (show 0 < longRow.filtered.length by omega)
  have hcount : blockCount 2147418109 = 32768 := rfl
  rw [hlen, hcount] at hzlen
  have hihdr : longRow.ihdr.length = 13 := rfl
  have h1 : IsChunk ihdrType longRow.ihdr (writeChunk ihdrType longRow.ihdr) :=
    isChunk_writeChunk (by rw [hihdr]; decide)
  have h2 : IsChunk idatType z (writeChunk idatType z) := isChunk_writeChunk (by omega)
  refine ⟨by omega, _, by rw [writePngFile, hz]; rfl, ?_⟩
  set file := sig ++ writeChunk ihdrType longRow.ihdr ++ writeChunk idatType z ++ writeChunk iendType []
    with hfile
  have hsplit : file = sig ++ (writeChunk ihdrType longRow.ihdr ++ (writeChunk idatType z ++
      writeChunk iendType [])) := by
    rw [hfile]
    simp only [List.append_assoc]
  obtain ⟨fuel, hfuel⟩ : ∃ fuel, file.length = fuel + 2 :=
    ⟨file.length - 2, by rw [hsplit, List.length_append, show sig.length = 8 from rfl]; omega⟩
  have hchunks : readChunks (2 ^ 31 - 1) file.length (file.drop 8) = none := by
    have hdrop : file.drop 8 = writeChunk ihdrType longRow.ihdr ++ (writeChunk idatType z ++
        writeChunk iendType []) := by
      rw [hsplit]
      rfl
    rw [hfuel, hdrop, readChunks_cons _ h1 rfl (by rw [hihdr]; decide), readChunks,
      if_neg (isChunk_ne_nil h2 _), readChunk_of_long h2 (by omega)]
    rfl
  rw [readPng, hchunks]
  split_ifs <;> rfl

end DiffusionImage

end Kappai
