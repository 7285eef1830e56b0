import Kappai.Lib.Crc
import Kappai.Spec.Chat

/-! The PNG files that `png.c` writes, and a reader of such files. A write that succeeds puts all its
bytes into the file. -/

namespace Kappai

/-- `pixels` has a byte for each channel of each pixel, row by row. -/
structure DiffusionImage where
  width : ℕ
  height : ℕ
  channels : ℕ
  pixels : Text
  size : pixels.length = width * channels * height

namespace Png

/-- An entry of `crc_table`, from `crc_init`. -/
def crcTable (n : BitVec 32) : BitVec 32 :=
  (List.range 8).foldl (fun c _ => if c &&& 1 ≠ 0 then 0xedb88320 ^^^ (c >>> 1) else c >>> 1) n

def crcUpdate (crc : BitVec 32) (buf : Text) : BitVec 32 :=
  buf.foldl (fun crc b => crcTable ((crc ^^^ b.toBitVec.setWidth 32) &&& 0xff) ^^^ (crc >>> 8)) crc

/-- The low byte of a `uint32_t`. -/
def byteOf (v : BitVec 32) : UInt8 := ⟨v.setWidth 8⟩

def putBe32 (v : BitVec 32) : Text := [byteOf (v >>> 24), byteOf (v >>> 16), byteOf (v >>> 8), byteOf v]

/-- What `write_chunk` writes. -/
def writeChunk (type data : Text) : Text :=
  let crc := crcUpdate (crcUpdate 0xffffffff type) data ^^^ 0xffffffff
  putBe32 (BitVec.ofNat 32 data.length) ++ type ++ data ++ putBe32 crc

def deflateStoredMax : ℕ := 65535

def adlerMod : ℕ := 65521

def adlerNmax : ℕ := 5552

/-- A sum of two `uint32_t`, `none` where it does not fit. -/
def add32 (x y : ℕ) : Option ℕ := if x + y < 2 ^ 32 then some (x + y) else none

/-- `a` and `b` after the bytes of one chunk. -/
def adlerChunk : ℕ → ℕ → Text → Option (ℕ × ℕ)
  | a, b, [] => some (a, b)
  | a, b, d :: rest =>
    (add32 a d.toNat).bind fun a => (add32 b a).bind fun b => adlerChunk a b rest

/-- `a` and `b` after all chunks, of which `fuel` is a bound. -/
def adlerLoop : ℕ → ℕ → ℕ → Text → Option (ℕ × ℕ)
  | 0, _, _, _ => none
  | fuel + 1, a, b, buf =>
    if buf.length > 0 then
      let chunk := min buf.length adlerNmax
      (adlerChunk a b (buf.take chunk)).bind fun s =>
        adlerLoop fuel (s.1 % adlerMod) (s.2 % adlerMod) (buf.drop chunk)
    else some (a, b)

def adler32 (buf : Text) : Option (BitVec 32) :=
  (adlerLoop (buf.length + 1) 1 0 buf).map fun s => BitVec.ofNat 32 s.2 <<< 16 ||| BitVec.ofNat 32 s.1

/-- `bytes` at the end of what `out` holds so far, `none` where they do not fit into `cap`. -/
def put (cap : ℕ) (out bytes : Text) : Option Text :=
  if out.length + bytes.length ≤ cap then some (out ++ bytes) else none

/-- The low byte of a `size_t`. -/
def sizeByte (v : BitVec 64) : UInt8 := ⟨v.setWidth 8⟩

/-- The five bytes before a block of `len` bytes. -/
def blockHeader (fin : Bool) (len : ℕ) : Text :=
  let len := BitVec.ofNat 64 len
  [if fin then 1 else 0, sizeByte (len &&& 0xff), sizeByte (len >>> 8), sizeByte (~~~len &&& 0xff),
    sizeByte ((~~~len >>> 8) &&& 0xff)]

/-- The loop over the blocks from `off` on, of which `fuel` is a bound. -/
def storedBlocks (cap : ℕ) (raw : Text) : ℕ → ℕ → Text → Option Text
  | 0, _, _ => none
  | fuel + 1, off, out =>
    if off < raw.length ∨ off = 0 then
      let len := min (raw.length - off) deflateStoredMax
      let fin := decide (off + len ≥ raw.length)
      (put cap out (blockHeader fin len)).bind fun out =>
        (put cap out ((raw.drop off).take len)).bind fun out =>
          if fin then some out else storedBlocks cap raw fuel (off + deflateStoredMax) out
    else some out

/-- `zlib_stored`, `none` if a sum or the buffer overflows. -/
def zlibStored (raw : Text) : Option Text :=
  let nBlocks := (raw.length + deflateStoredMax - 1) / deflateStoredMax
  let cap := 2 + raw.length + nBlocks * 5 + 4
  (put cap [] [0x78, 0x01]).bind fun out =>
    (storedBlocks cap raw (nBlocks + 1) 0 out).bind fun out =>
      (adler32 raw).bind fun sum => put cap out (putBe32 sum)

def sig : Text := [0x89, 80, 78, 71, 0x0d, 0x0a, 0x1a, 0x0a]

def ihdrType : Text := [73, 72, 68, 82]

def idatType : Text := [73, 68, 65, 84]

def iendType : Text := [73, 69, 78, 68]

end Png

namespace DiffusionImage

open Png

variable (img : DiffusionImage)

def rowBytes : ℕ := img.width * img.channels

/-- `raw`, the rows with a zero before each. -/
def filtered : Text :=
  (List.range img.height).flatMap fun y => 0 :: (img.pixels.drop (y * img.rowBytes)).take img.rowBytes

def ihdr : Text :=
  putBe32 (BitVec.ofNat 32 img.width) ++ putBe32 (BitVec.ofNat 32 img.height) ++
    [8, if img.channels = 4 then 6 else 2, 0, 0, 0]

/-- What `write_png_file` writes, `none` if it goes past a buffer. -/
def writePngFile : Option Text :=
  (zlibStored img.filtered).map fun z =>
    sig ++ writeChunk ihdrType img.ihdr ++ writeChunk idatType z ++ writeChunk iendType []

end DiffusionImage

namespace Png

open Polynomial

/-- The polynomial of the checks. -/
noncomputable def pngPoly : (ZMod 2)[X] :=
  X ^ 32 + X ^ 26 + X ^ 23 + X ^ 22 + X ^ 16 + X ^ 12 + X ^ 11 + X ^ 10 + X ^ 8 + X ^ 7 + X ^ 5 + X ^ 4 +
    X ^ 2 + X + 1

/-- `crc` is the check of `bytes` by division: its complement is the remainder of the message, with the
first 32 bits complemented and 32 zeros after it. -/
def IsCrc32 (bytes : Text) (crc : BitVec 32) : Prop :=
  regPoly (~~~crc) =
    (X ^ (8 * bytes.length) * (∑ i ∈ Finset.range 32, X ^ i) + X ^ 32 * msgPoly bytes) %ₘ pngPoly

/-- The two sums of the checksum of a zlib stream. -/
def adlerA (bytes : Text) : ℕ := (1 + (bytes.map UInt8.toNat).sum) % 65521

def adlerB (bytes : Text) : ℕ :=
  ((List.range bytes.length).map fun i => 1 + ((bytes.take (i + 1)).map UInt8.toNat).sum).sum % 65521

def readBe32 : Text → Option (ℕ × Text)
  | a :: b :: c :: d :: rest =>
    some (((a.toNat * 256 + b.toNat) * 256 + c.toNat) * 256 + d.toNat, rest)
  | _ => none

open Classical in
/-- The type and the data of the first chunk, of at most `limit` bytes, and what comes after it. -/
noncomputable def readChunk (limit : ℕ) (file : Text) : Option ((Text × Text) × Text) :=
  (readBe32 file).bind fun len =>
    if len.1 ≤ limit ∧ 4 + len.1 ≤ len.2.length then
      let type := len.2.take 4
      let data := (len.2.drop 4).take len.1
      (readBe32 (len.2.drop (4 + len.1))).bind fun crc =>
        if IsCrc32 (type ++ data) (BitVec.ofNat 32 crc.1) then some ((type, data), crc.2) else none
    else none

noncomputable def readChunks (limit : ℕ) : ℕ → Text → Option (List (Text × Text))
  | 0, _ => none
  | fuel + 1, file =>
    if file = [] then some []
    else (readChunk limit file).bind fun chunk =>
      (readChunks limit fuel chunk.2).map (chunk.1 :: ·)

/-- The data of stored blocks up to the final one, and what comes after it. -/
def inflateStored : ℕ → Text → Option (Text × Text)
  | fuel + 1, h :: l0 :: l1 :: n0 :: n1 :: rest =>
    let len := l0.toNat + 256 * l1.toNat
    if h.toNat / 2 % 4 = 0 ∧ l0.toNat + n0.toNat = 255 ∧ l1.toNat + n1.toNat = 255 ∧
        len ≤ rest.length then
      if h.toNat % 2 = 1 then some (rest.take len, rest.drop len)
      else (inflateStored fuel (rest.drop len)).map fun r => (rest.take len ++ r.1, r.2)
    else none
  | _, _ => none

/-- The data of a zlib stream, with its checksum and nothing else after it. -/
def readZlib : Text → Option Text
  | cmf :: flg :: rest =>
    if cmf.toNat % 16 = 8 ∧ cmf.toNat / 16 ≤ 7 ∧ flg.toNat / 32 % 2 = 0 ∧
        (cmf.toNat * 256 + flg.toNat) % 31 = 0 then
      (inflateStored rest.length rest).bind fun data =>
        (readBe32 data.2).bind fun sum =>
          if sum.1 = adlerB data.1 * 65536 + adlerA data.1 ∧ sum.2 = [] then some data.1 else none
    else none
  | _ => none

/-- The rows of an image, none of them filtered. -/
def readRows (rowBytes : ℕ) : ℕ → Text → Option Text
  | 0, raw => if raw = [] then some [] else none
  | height + 1, 0 :: raw =>
    if rowBytes ≤ raw.length then
      (readRows rowBytes height (raw.drop rowBytes)).map (raw.take rowBytes ++ ·)
    else none
  | _ + 1, _ => none

/-- Width, height and channels of eight bits each. -/
def readIhdr (data : Text) : Option (ℕ × ℕ × ℕ) :=
  (readBe32 data).bind fun width =>
    (readBe32 width.2).bind fun height =>
      if 0 < width.1 ∧ width.1 < 2 ^ 31 ∧ 0 < height.1 ∧ height.1 < 2 ^ 31 then
        if height.2 = [8, 2, 0, 0, 0] then some (width.1, height.1, 3)
        else if height.2 = [8, 6, 0, 0, 0] then some (width.1, height.1, 4)
        else none
      else none

/-- Width, height, channels and pixels of a file whose chunks have at most `limit` bytes of data: the
header, image data and the end. -/
noncomputable def readPng (limit : ℕ) (file : Text) : Option (ℕ × ℕ × ℕ × Text) :=
  if file.take 8 = sig then
    (readChunks limit file.length (file.drop 8)).bind fun chunks =>
      match chunks with
      | first :: rest =>
        if first.1 = ihdrType ∧ rest.getLast? = some (iendType, []) ∧
            ∀ chunk ∈ rest.dropLast, chunk.1 = idatType then
          (readIhdr first.2).bind fun dims =>
            (readZlib (rest.dropLast.flatMap (·.2))).bind fun raw =>
              (readRows (dims.1 * dims.2.2) dims.2.1 raw).map fun pixels =>
                (dims.1, dims.2.1, dims.2.2, pixels)
        else none
      | [] => none
  else none

/-- `z` is a zlib stream of stored blocks, of which the last is the final one. -/
def StoredStream (raw z : Text) : Prop :=
  ∃ (front : List Text) (last : Text), raw = front.flatten ++ last ∧
    (∀ b ∈ front ++ [last], b.length ≤ 65535) ∧
    z = [0x78, 0x01] ++ (front.flatMap fun b => blockHeader false b.length ++ b) ++
      (blockHeader true last.length ++ last) ++
      putBe32 (BitVec.ofNat 32 (adlerB raw * 65536 + adlerA raw))

/-- What a chunk is: its length, its type and data, and the check of both. -/
def IsChunk (type data chunk : Text) : Prop :=
  ∃ crc, IsCrc32 (type ++ data) crc ∧ data.length < 2 ^ 32 ∧
    chunk = putBe32 (BitVec.ofNat 32 data.length) ++ type ++ data ++ putBe32 crc

end Png

end Kappai
