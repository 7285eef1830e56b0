import Kappai.Lib.ByteReader
import Kappai.Spec.Bpe
import Kappai.Spec.ThinkFilter

/-! Model files: `gguf_parse_common`, the tables of names and the accessors, from gguf.c. A `gguf_reader`
is the list of the bytes that it has left. -/

namespace Kappai

namespace Gguf

open ByteReader

/-- `gguf_type` -/
inductive GgufType
  | u8 | i8 | u16 | i16 | u32 | i32 | f32 | bool | string | array | u64 | i64 | f64
deriving DecidableEq, Repr

/-- The types by their numbers. -/
def ggufTypes : List GgufType :=
  [.u8, .i8, .u16, .i16, .u32, .i32, .f32, .bool, .string, .array, .u64, .i64, .f64]

/-- The cases of the `switch` over a number from the file. -/
def GgufType.ofCode (t : UInt32) : Option GgufType := ggufTypes[t.toNat]?

def GgufType.code (t : GgufType) : ℕ := ggufTypes.idxOf t

/-- `sizes` in `gguf_read_numeric_array`: 0 for what is no number. -/
def GgufType.size : GgufType → ℕ
  | .u8 | .i8 | .bool => 1
  | .u16 | .i16 => 2
  | .u32 | .i32 | .f32 => 4
  | .u64 | .i64 | .f64 => 8
  | .string | .array => 0

/-! ### The readers -/

def ggufReaderU8 : ByteReader UInt8 := fun s =>
  match s with
  | b :: s => some (b, s)
  | [] => none

def ggufReaderU16 : ByteReader UInt16 := fun s =>
  match s with
  | b0 :: b1 :: s => some (b0.toUInt16 ||| b1.toUInt16 <<< 8, s)
  | _ => none

def ggufReaderU32 : ByteReader UInt32 := fun s =>
  match s with
  | b0 :: b1 :: b2 :: b3 :: s =>
    some (b0.toUInt32 ||| b1.toUInt32 <<< 8 ||| b2.toUInt32 <<< 16 ||| b3.toUInt32 <<< 24, s)
  | _ => none

def ggufReaderU64 : ByteReader UInt64 := fun s =>
  if s.length < 8 then none
  else
    some ((List.range 8).foldl (fun v i => v ||| (s.getD i 0).toUInt64 <<< UInt64.ofNat (i * 8)) 0, s.drop 8)

/-- `gguf_reader_str`; the bytes may have zeros among them. -/
def ggufReaderStr : ByteReader Text := do
  let n ← ggufReaderU64
  takeBytes n.toNat

/-- `gguf_arr_len_ok`, with the product in 64 bits. -/
def ggufArrLenOk (n : UInt64) (elemSize : ℕ) : ByteReader Unit := fun s =>
  if elemSize = 0 ∨ n.toNat > (2 ^ 64 - 1) / elemSize then none
  else if (n * UInt64.ofNat elemSize).toNat ≤ s.length then some ((), s)
  else none

/-- `arr_data` -/
inductive ArrData
  | none
  | numbers (bytes : Text)
  | strings (items : List Text)
deriving DecidableEq, Repr

/-- `kv_entry`. What no value sets is zero. -/
structure KvEntry where
  key : Text
  type : GgufType
  ival : UInt64 := 0
  str : Text := []
  arrType : GgufType := .u8
  arrLen : UInt64 := 0
  arrData : ArrData := .none
deriving DecidableEq, Repr

/-- `gguf_read_numeric_array`, on a machine that has its numbers in the order of the file. -/
def ggufReadNumericArray (e : KvEntry) : ByteReader KvEntry := do
  ggufArrLenOk e.arrLen e.arrType.size
  let data ← takeBytes (e.arrLen.toNat * e.arrType.size)
  pure { e with arrData := .numbers data }

/-- `parse_kv_value` -/
def parseKvValue (key : Text) (type : UInt32) : ByteReader KvEntry :=
  match GgufType.ofCode type with
  | none => fail
  | some .u8 => do
    let v ← ggufReaderU8
    pure { key := key, type := .u8, ival := v.toUInt64 }
  | some .i8 => do
    -- `(unsigned char)(int8_t)v`
    let v ← ggufReaderU8
    pure { key := key, type := .i8, ival := v.toUInt64 }
  | some .u16 => do
    let v ← ggufReaderU16
    pure { key := key, type := .u16, ival := v.toUInt64 }
  | some .i16 => do
    let v ← ggufReaderU16
    pure { key := key, type := .i16, ival := v.toInt16.toInt64.toUInt64 }
  | some .u32 => do
    let v ← ggufReaderU32
    pure { key := key, type := .u32, ival := v.toUInt64 }
  | some .i32 => do
    let v ← ggufReaderU32
    pure { key := key, type := .i32, ival := v.toInt32.toInt64.toUInt64 }
  | some .u64 => do
    let v ← ggufReaderU64
    pure { key := key, type := .u64, ival := v }
  | some .i64 => do
    let v ← ggufReaderU64
    pure { key := key, type := .i64, ival := v }
  | some .f32 => do
    let v ← ggufReaderU32
    pure { key := key, type := .f32, ival := v.toUInt64 }
  | some .f64 => do
    let v ← ggufReaderU64
    pure { key := key, type := .f64, ival := v }
  | some .bool => do
    let v ← ggufReaderU8
    pure { key := key, type := .bool, ival := if v ≠ 0 then 1 else 0 }
  | some .string => do
    let s ← ggufReaderStr
    pure { key := key, type := .string, str := s }
  | some .array => do
    let et ← ggufReaderU32
    let n ← ggufReaderU64
    match GgufType.ofCode et with
    | some .string => do
      ggufArrLenOk n 8
      let items ← many ggufReaderStr n.toNat
      pure { key := key, type := .array, arrType := .string, arrLen := n, arrData := .strings items }
    | some et => ggufReadNumericArray { key := key, type := .array, arrType := et, arrLen := n }
    | none => fail

/-! ### The types of tensors -/

/-- `ggml_type_info` without the name. -/
structure GgmlTypeInfo where
  blockSize : ℕ
  blockElems : ℕ
deriving DecidableEq, Repr

/-- `ggml_type_lookup`, by the numbers of `ggml_type`. -/
def ggmlTypeLookup (t : UInt32) : Option GgmlTypeInfo :=
  match t.toNat with
  | 0 => some ⟨4, 1⟩ -- f32
  | 1 => some ⟨2, 1⟩ -- f16
  | 30 => some ⟨2, 1⟩ -- bf16
  | 2 => some ⟨18, 32⟩ -- q4_0
  | 3 => some ⟨20, 32⟩ -- q4_1
  | 6 => some ⟨22, 32⟩ -- q5_0
  | 7 => some ⟨24, 32⟩ -- q5_1
  | 8 => some ⟨34, 32⟩ -- q8_0
  | 9 => some ⟨36, 32⟩ -- q8_1
  | 11 => some ⟨110, 256⟩ -- q3_K
  | 12 => some ⟨144, 256⟩ -- q4_K
  | 13 => some ⟨176, 256⟩ -- q5_K
  | 14 => some ⟨210, 256⟩ -- q6_K
  | 20 => some ⟨18, 32⟩ -- iq4_nl
  | 21 => some ⟨110, 256⟩ -- iq3_s
  | 16 => some ⟨66, 256⟩ -- iq2_xxs
  | 18 => some ⟨98, 256⟩ -- iq3_xxs
  | 22 => some ⟨82, 256⟩ -- iq2_s
  | 23 => some ⟨136, 256⟩ -- iq4_xs
  | 0x43 => some ⟨34, 32⟩ -- q8_0_repacked
  | 0x44 => some ⟨18, 32⟩ -- q4_0_repacked
  | 0x45 => some ⟨134, 256⟩ -- iq3_s_repacked
  | 0x46 => some ⟨18, 32⟩ -- iq4_nl_repacked
  | 0x47 => some ⟨148, 256⟩ -- q4_k_repacked
  | 0x48 => some ⟨180, 256⟩ -- q5_k_repacked
  | 0x49 => some ⟨210, 256⟩ -- q6_k_repacked
  | _ => none

/-- `ggml_type_loadable` -/
def ggmlTypeLoadable (t : UInt32) : Bool := decide (t < 0x43) && (ggmlTypeLookup t).isSome

/-- `ggml_row_size` -/
def ggmlRowSize (t : UInt32) (n : ℕ) : ℕ :=
  match ggmlTypeLookup t with
  | none => 0
  | some info => (n + info.blockElems - 1) % 2 ^ 64 / info.blockElems * info.blockSize % 2 ^ 64

/-- `gguf_tensor`. `data` is an offset into the file. -/
structure GgufTensor where
  name : Text
  dims : List UInt64
  type : UInt32
  offset : UInt64
  byteSize : ℕ := 0
  data : Option ℕ := none
deriving DecidableEq, Repr

/-- The product over the dimensions after the first. -/
def byteSizeLoop : List UInt64 → ℕ → Option ℕ
  | [], total => some total
  | d :: dims, total =>
    if d ≠ 0 ∧ d.toNat > (2 ^ 64 - 1) / total then none
    else byteSizeLoop dims (total * (if d = 0 then 1 else d.toNat) % 2 ^ 64)

/-- `gguf_tensor_byte_size` -/
def ggufTensorByteSize (t : GgufTensor) : Option ℕ :=
  match t.dims with
  | [] => none
  | d :: dims =>
    match ggmlTypeLookup t.type with
    | none => none
    | some info =>
      if d.toNat % info.blockElems ≠ 0 then none
      else
        let row := ggmlRowSize t.type d.toNat
        if row = 0 then none else byteSizeLoop dims row

/-! ### The header -/

/-- A turn of the loop over `n_kv`. -/
def parseKv : ByteReader KvEntry := do
  let key ← ggufReaderStr
  let t ← ggufReaderU32
  parseKvValue key t

/-- A turn of the loop over `n_tensors`. -/
def parseTensor : ByteReader GgufTensor := do
  let name ← ggufReaderStr
  if name.length ≥ 128 then fail
  else do
    let nDims ← ggufReaderU32
    if nDims > 4 then fail
    else do
      let dims ← many ggufReaderU64 nDims.toNat
      let type ← ggufReaderU32
      let offset ← ggufReaderU64
      let t : GgufTensor := { name := name, dims := dims, type := type, offset := offset }
      pure { t with byteSize := (ggufTensorByteSize t).getD 0 }

/-- `GGUF_MAGIC` -/
def ggufMagic : UInt32 := 0x46554747

/-- The check of the two numbers against the bytes left. -/
def checkCounts (nTensors nKv : UInt64) : ByteReader Unit := fun s =>
  if nKv.toNat > s.length / 13 ∨ nTensors.toNat > s.length / 25 then none else some ((), s)

/-- `gguf_parse_common` up to the last tensor. -/
def parseHeader : ByteReader (List KvEntry × List GgufTensor) := do
  let magic ← ggufReaderU32
  if magic ≠ ggufMagic then fail
  else do
    let version ← ggufReaderU32
    if version ≠ 2 ∧ version ≠ 3 then fail
    else do
      let nTensors ← ggufReaderU64
      let nKv ← ggufReaderU64
      checkCounts nTensors nKv
      let kv ← many parseKv nKv.toNat
      let ts ← many parseTensor nTensors.toNat
      pure (kv, ts)

def alignmentKey : Text := ascii "general.alignment"

/-- `align`: the first entry with the key decides. -/
def ggufAlign (kv : List KvEntry) : Option ℕ :=
  match kv.find? fun e => cstr e.key = alignmentKey with
  | none => some 32
  | some e =>
    if e.type ≠ .u32 ∧ e.type ≠ .i32 then none
    else
      let a := e.ival.toUInt32
      if a = 0 ∨ a &&& (a - 1) ≠ 0 then none else some a.toNat

/-- `(v + a - 1) & ~(a - 1)` on `size_t` -/
def alignUpBytes (v a : ℕ) : ℕ := ((UInt64.ofNat v + UInt64.ofNat a - 1) &&& ~~~(UInt64.ofNat a - 1)).toNat

/-- Where the bytes of a tensor are: `none` fails. A tensor of an unknown type is kept without them. -/
def placeTensor (headerOnly : Bool) (dataFileOffset dataSize : ℕ) (t : GgufTensor) : Option GgufTensor :=
  if headerOnly ∨ t.byteSize = 0 then some t
  else if t.offset.toNat > dataSize ∨ t.byteSize > dataSize - t.offset.toNat then none
  else some { t with data := some (dataFileOffset + t.offset.toNat) }

/-! ### Tables of names -/

/-- `gguf_strtab_entry`; a slot that is not used is `none`. -/
abbrev StrTab := ℕ → Option (Text × ℕ)

/-- The loop for `cap`. -/
def strtabCap (minCap : ℕ) : ℕ := mergeCapLoop minCap minCap 1

/-- `strcmp(a, b) == 0` -/
def strEq (a b : Text) : Bool := cstr a = cstr b

/-- `fnv1a_str` -/
def fnv1aStr (key : Text) : UInt64 := fnv1a (cstr key)

/-- `strtab_build`: an entry with a key that is there is left out. -/
def strtabBuild (keys : List Text) (minCap : ℕ) : StrTab :=
  keys.zipIdx.foldl (fun table e =>
    OpenTable.insert table (fun f => strEq f.1 e.1) e (probes (strtabCap minCap) (fnv1aStr e.1)))
    fun _ => none

/-- `strtab_find`: `none` where the loop does not end, `some none` for -1. -/
def strtabFind (table : StrTab) (cap : ℕ) (key : Text) : Option (Option ℕ) :=
  match (OpenTable.chain table (probes cap (fnv1aStr key))).find? fun e => strEq e.1 key with
  | some e => some (some e.2)
  | none => if (probes cap (fnv1aStr key)).any fun q => (table q).isNone then some none else none

/-- `gguf_ctx`, what the parser sets of it. -/
structure GgufCtx where
  kv : List KvEntry
  tensors : List GgufTensor
  dataFileOffset : ℕ
  dataSize : ℕ
deriving DecidableEq, Repr

namespace GgufCtx

variable (c : GgufCtx)

/-- `tensor_hash`, from `gguf_ctx_build_index`. -/
def tensorHash : StrTab := strtabBuild (c.tensors.map (·.name)) (c.tensors.length * 2)

def tensorHashCap : ℕ := strtabCap (c.tensors.length * 2)

/-- `kv_hash` -/
def kvHash : StrTab := strtabBuild (c.kv.map (·.key)) (c.kv.length * 2 + 1)

def kvHashCap : ℕ := strtabCap (c.kv.length * 2 + 1)

end GgufCtx

/-- `gguf_parse_common` of a file that is not taken for another format. -/
def ggufParse (file : Text) (headerOnly : Bool) : Option GgufCtx :=
  match parseHeader file with
  | none => none
  | some ((kv, ts), rest) =>
    match ggufAlign kv with
    | none => none
    | some align =>
      let aligned := alignUpBytes (file.length - rest.length) align
      if aligned > file.length then none
      else
        (ts.mapM (placeTensor headerOnly aligned (file.length - aligned))).map fun ts =>
          ⟨kv, ts, aligned, file.length - aligned⟩

/-- `safetensors_detect`: the first eight bytes are the length of a header that begins with a brace. -/
def safetensorsDetect (file : Text) : Bool :=
  match ggufReaderU64 file with
  | none => false
  | some (headerLen, rest) => decide (headerLen.toNat < file.length - 8) && rest.head? == some 0x7b

/-- `gguf_parse_common`, with the parser for the other format. -/
def ggufParseCommon (safetensorsParse : Text → Bool → Option GgufCtx) (file : Text) (headerOnly : Bool) :
    Option GgufCtx :=
  if safetensorsDetect file then safetensorsParse file headerOnly else ggufParse file headerOnly

/-! ### The accessors -/

/-- What an accessor returns instead of `OK`. -/
inductive GgufError
  | notFound
  | invalidArg
deriving DecidableEq, Repr

namespace GgufCtx

variable (c : GgufCtx)

/-- `find_kv` -/
def findKv (key : Text) : Option (Option ℕ) := strtabFind c.kvHash c.kvHashCap key

/-- `gguf_find_checked`: the entry. -/
def findChecked (key : Text) (want : GgufType) : Option (Except GgufError KvEntry) :=
  (c.findKv key).map fun i =>
    match i.bind fun i => c.kv[i]? with
    | none => .error .notFound
    | some e => if e.type ≠ want then .error .invalidArg else .ok e

/-- `gguf_get_i32` -/
def getI32 (key : Text) : Option (Except GgufError UInt32) := do
  match ← c.findChecked key .i32 with
  | .ok e => pure (.ok e.ival.toUInt32)
  | .error st =>
    match ← c.findChecked key .u32 with
    | .ok e => pure (.ok e.ival.toUInt32)
    | .error st2 => pure (.error (if st = .notFound ∧ st2 = .notFound then .notFound else .invalidArg))

/-- `gguf_get_f32`: the bits. -/
def getF32 (key : Text) : Option (Except GgufError UInt32) :=
  (c.findChecked key .f32).map (Except.map (·.ival.toUInt32))

/-- `gguf_get_bool` -/
def getBool (key : Text) : Option (Except GgufError UInt32) :=
  (c.findChecked key .bool).map (Except.map (·.ival.toUInt32))

/-- `gguf_get_str` -/
def getStr (key : Text) : Option (Except GgufError Text) :=
  (c.findChecked key .string).map (Except.map (cstr ·.str))

/-- `gguf_get_arr_raw`, which the accessors for arrays of one type of elements are. -/
def getArrRaw (key : Text) (elemType : GgufType) : Option (Except GgufError (ArrData × UInt64)) :=
  (c.findChecked key .array).map fun r => r.bind fun e =>
    if e.arrType ≠ elemType then .error .invalidArg else .ok (e.arrData, e.arrLen)

def getArrI32 (key : Text) : Option (Except GgufError (ArrData × UInt64)) := c.getArrRaw key .i32

def getArrF32 (key : Text) : Option (Except GgufError (ArrData × UInt64)) := c.getArrRaw key .f32

def getArrStr (key : Text) : Option (Except GgufError (ArrData × UInt64)) := c.getArrRaw key .string

def getArrBool (key : Text) : Option (Except GgufError (ArrData × UInt64)) := c.getArrRaw key .bool

/-- `gguf_find_tensor` -/
def findTensor (name : Text) : Option (Option GgufTensor) :=
  (strtabFind c.tensorHash c.tensorHashCap name).map fun i =>
    (i.bind fun i => c.tensors[i]?).filter fun t => t.byteSize ≠ 0

end GgufCtx

end Gguf

end Kappai
