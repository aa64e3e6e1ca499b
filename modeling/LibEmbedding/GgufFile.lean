import LibEmbedding.GgufProbe
import LibEmbedding.Foundation.ByteReader

/-!
# GGUF files

The vendored reader and writer of `gguf.cpp`, byte by byte. A file is a header, entries, a
directory of tensors, and after the next multiple of the alignment the data of the tensors, each
padded to the alignment. Sizes are those of 64-bit targets, and memory does not run out.
-/

namespace LibEmbedding

open Foundation

/-- The values of `size_t` and `uint64_t`. -/
def sizeRange : Nat := 2 ^ 64

def sizeMax : Nat := sizeRange - 1

def int64Max : Nat := 2 ^ 63 - 1

/-- `int64_t` multiplication of numbers that are not negative. -/
def mulInt64 (a b : Nat) : Checked Nat := do
  ensure (a * b ≤ int64Max) .overflow
  return a * b

/-- `GGML_PAD`, for a power of two. -/
def ggmlPad (x n : Nat) : Nat := (x + n - 1) % sizeRange &&& (sizeRange - n)

-- ---------------------------------------------------------------------------
-- Entries
-- ---------------------------------------------------------------------------

/-- `enum gguf_type` -/
inductive GgufType where
  | uint8
  | int8
  | uint16
  | int16
  | uint32
  | int32
  | float32
  | bool
  | string
  | array
  | uint64
  | int64
  | float64
  deriving DecidableEq, Repr

def GgufType.code : GgufType → Nat
  | .uint8 => 0
  | .int8 => 1
  | .uint16 => 2
  | .int16 => 3
  | .uint32 => 4
  | .int32 => 5
  | .float32 => 6
  | .bool => 7
  | .string => 8
  | .array => 9
  | .uint64 => 10
  | .int64 => 11
  | .float64 => 12

def GgufType.ofCode : Nat → Option GgufType
  | 0 => some .uint8
  | 1 => some .int8
  | 2 => some .uint16
  | 3 => some .int16
  | 4 => some .uint32
  | 5 => some .int32
  | 6 => some .float32
  | 7 => some .bool
  | 8 => some .string
  | 9 => some .array
  | 10 => some .uint64
  | 11 => some .int64
  | 12 => some .float64
  | _ => none

/-- `gguf_type_size` -/
def GgufType.size : GgufType → Nat
  | .uint8 | .int8 | .bool => 1
  | .uint16 | .int16 => 2
  | .uint32 | .int32 | .float32 => 4
  | .uint64 | .int64 | .float64 => 8
  | .string | .array => 0

structure GgufKv where
  key : Bytes
  isArray : Bool
  type : GgufType
  data : Bytes
  dataString : List Bytes
  deriving DecidableEq

/-- `get_ne` -/
def GgufKv.getNe (kv : GgufKv) : Checked Nat :=
  if kv.type = .string then do
    ensure (kv.isArray ∨ kv.dataString.length = 1) .assertFailed
    return kv.dataString.length
  else do
    ensure (kv.type.size ≠ 0) .divisionByZero
    ensure (kv.data.length % kv.type.size = 0) .assertFailed
    let ne := kv.data.length / kv.type.size
    ensure (kv.isArray ∨ ne = 1) .assertFailed
    return ne

/-- `gguf_get_val_u32` -/
def GgufKv.getValU32 (kv : GgufKv) : Checked Nat := do
  let ne ← kv.getNe
  ensure (ne = 1) .assertFailed
  ensure (kv.type = .uint32) .assertFailed
  ensure (4 ≤ kv.data.length) .assertFailed
  return ofLittleEndian (kv.data.take 4)

/-- `gguf_get_kv_type` -/
def GgufKv.kvType (kv : GgufKv) : GgufType := if kv.isArray then .array else kv.type

/-- `gguf_find_key` -/
def findKey (kv : List GgufKv) (key : Bytes) : Option GgufKv :=
  kv.find? fun entry => key = cstr entry.key

-- ---------------------------------------------------------------------------
-- Tensors
-- ---------------------------------------------------------------------------

/-- Block and type sizes of `type_traits`, by the number of the type. -/
def typeTraits : List (Nat × Nat) := [
  (1, 4), (1, 2), (32, 18), (32, 20), (0, 0), (0, 0), (32, 22), (32, 24), (32, 34), (32, 36),
  (256, 84), (256, 110), (256, 144), (256, 176), (256, 210), (256, 292), (256, 66), (256, 74),
  (256, 98), (256, 50), (32, 18), (256, 110), (256, 82), (256, 136), (1, 1), (1, 2), (1, 4),
  (1, 8), (1, 8), (256, 56), (1, 2), (0, 0), (0, 0), (0, 0), (256, 54), (256, 66), (0, 0),
  (0, 0), (0, 0), (32, 17), (64, 36), (128, 18), (64, 18)]

/-- `ggml_blck_size` -/
def blckSize (type : Nat) : Nat := (typeTraits.getD type (0, 0)).1

/-- `ggml_type_size` -/
def typeSize (type : Nat) : Nat := (typeTraits.getD type (0, 0)).2

structure GgmlShape where
  ne0 : Nat
  ne1 : Nat
  ne2 : Nat
  ne3 : Nat
  deriving DecidableEq

/-- `ggml_nelements` -/
def GgmlShape.nelements (s : GgmlShape) : Checked Nat := do
  let n ← mulInt64 s.ne0 s.ne1
  let n ← mulInt64 n s.ne2
  mulInt64 n s.ne3

/-- `ggml_n_dims` -/
def GgmlShape.nDims (s : GgmlShape) : Nat :=
  if 1 < s.ne3 then 4 else if 1 < s.ne2 then 3 else if 1 < s.ne1 then 2 else 1

def GgmlShape.dims (s : GgmlShape) : List Nat := [s.ne0, s.ne1, s.ne2, s.ne3]

structure GgufTensorInfo where
  name : Bytes
  shape : GgmlShape
  type : Nat
  nb0 : Nat
  nb1 : Nat
  nb2 : Nat
  nb3 : Nat
  offset : Nat
  deriving DecidableEq

/-- `ggml_nbytes` -/
def GgufTensorInfo.nbytes (t : GgufTensorInfo) : Nat :=
  if 0 ∈ t.shape.dims then 0
  else if blckSize t.type = 1 then
    (typeSize t.type + (t.shape.ne0 - 1) * t.nb0 + (t.shape.ne1 - 1) * t.nb1 +
      (t.shape.ne2 - 1) * t.nb2 + (t.shape.ne3 - 1) * t.nb3) % sizeRange
  else
    (t.shape.ne0 * t.nb0 % sizeRange / blckSize t.type + (t.shape.ne1 - 1) * t.nb1 +
      (t.shape.ne2 - 1) * t.nb2 + (t.shape.ne3 - 1) * t.nb3) % sizeRange

/-- `ggml_is_contiguous` -/
def GgufTensorInfo.isContiguous (t : GgufTensorInfo) : Bool :=
  let next := typeSize t.type
  if t.shape.ne0 ≠ blckSize t.type ∧ t.nb0 ≠ next then false
  else
    let next := next * (t.shape.ne0 / blckSize t.type) % sizeRange
    if t.shape.ne1 ≠ 1 ∧ t.nb1 ≠ next then false
    else
      let next := next * t.shape.ne1 % sizeRange
      if t.shape.ne2 ≠ 1 ∧ t.nb2 ≠ next then false
      else
        let next := next * t.shape.ne2 % sizeRange
        !decide (t.shape.ne3 ≠ 1 ∧ t.nb3 ≠ next)

/-- `struct gguf_context`; `data` is the blob the tensors point into. -/
structure GgufContext where
  version : Nat := 3
  kv : List GgufKv := []
  info : List GgufTensorInfo := []
  alignment : Nat := 32
  offset : Nat := 0
  size : Nat := 0
  data : Option Bytes := none
  deriving DecidableEq

/-- The bytes the `data` member of a tensor points to. -/
def GgufContext.tensorData (ctx : GgufContext) (t : GgufTensorInfo) : Option Bytes :=
  ctx.data.map fun blob => (blob.drop t.offset).take t.nbytes

/-- `ctx` tells whether tensors are asked for. -/
structure GgufInitParams where
  noAlloc : Bool
  ctx : Bool

-- ---------------------------------------------------------------------------
-- Reading
-- ---------------------------------------------------------------------------

namespace Gguf

open ByteReader

def maxStringLength : Nat := 1024 * 1024 * 1024

/-- `read(std::string &)` -/
def readString : ByteReader Bytes := do
  let size ← number 8
  demand (size ≤ maxStringLength)
  take size

/-- `read(T &)`: a `bool` is one byte that is zero or not. -/
def readElement (type : GgufType) : ByteReader Bytes := do
  let bytes ← take type.size
  return if type = .bool then bytes.map fun b => if b = 0 then 0 else 1 else bytes

/-- `read(std::vector<T> &, n)` -/
def readArray (type : GgufType) (n : Nat) : ByteReader Bytes := do
  demand (n ≤ maxArrayElements)
  expect (n * type.size)
  let elements ← many n (readElement type)
  return elements.flatten

/-- `read(std::vector<std::string> &, n)` -/
def readStrings (n : Nat) : ByteReader (List Bytes) := do
  demand (n ≤ maxArrayElements)
  expect (n * 8)
  many n readString

/-- What stands between a key and its value. -/
structure KvType where
  isArray : Bool
  code : Nat
  n : Nat

def readType : ByteReader KvType := do
  let code ← number 4
  if code = GgufType.array.code then
    let element ← number 4
    let n ← number 8
    return ⟨true, element, n⟩
  else
    return ⟨false, code, 1⟩

/-- `gguf_read_emplace_helper`, by the type of the element. -/
def readValue (key : Bytes) (isArray : Bool) (n : Nat) : Option GgufType → ByteReader GgufKv
  | none | some .array => refuse
  | some .string => do
    let strings ← if isArray then readStrings n else List.singleton <$> readString
    return ⟨key, isArray, .string, [], strings⟩
  | some type => do
    let data ← if isArray then readArray type n else readElement type
    return ⟨key, isArray, type, data, []⟩

/-- One entry, after those in `done`. -/
def readKv (done : List GgufKv) : ByteReader GgufKv := do
  let key ← readString
  demand (key ≠ [])
  demand (∀ kv ∈ done, key ≠ kv.key)
  let type ← readType
  readValue key type.isArray type.n (GgufType.ofCode type.code)

def alignmentKey : Bytes := ascii "general.alignment"

def readAlignment (kv : List GgufKv) : ByteReader Nat := do
  let alignment ← match findKey kv alignmentKey with
    | none => pure 32
    | some entry => do
      demand (entry.kvType = .uint32)
      runChecked entry.getValU32
  demand (alignment ≠ 0 ∧ alignment &&& (alignment - 1) = 0)
  return alignment

def readDim : ByteReader Nat := do
  let ne ← number 8
  demand (ne ≤ int64Max)
  return ne

/-- The test before a tensor's number of elements is used. -/
def representable (s : GgmlShape) (n : Nat) : Prop :=
  0 < n → s.ne0 < int64Max / s.ne1 ∧ s.ne0 * s.ne1 < int64Max / s.ne2 ∧
    s.ne0 * s.ne1 * s.ne2 < int64Max / s.ne3

instance (s : GgmlShape) (n : Nat) : Decidable (representable s n) :=
  inferInstanceAs (Decidable (_ → _))

/-- A dimension that is not there is one. -/
def readShape : ByteReader GgmlShape := do
  let nDims ← number 4
  demand (nDims ≤ 4)
  let ne ← many nDims readDim
  let shape : GgmlShape := ⟨ne.getD 0 1, ne.getD 1 1, ne.getD 2 1, ne.getD 3 1⟩
  let n ← runChecked shape.nelements
  demand (representable shape n)
  return shape

/-- A negative number is above all others as `uint32_t`. -/
def readTensorType (shape : GgmlShape) : ByteReader Nat := do
  let type ← number 4
  demand (type < typeTraits.length)
  demand (blckSize type ≠ 0 ∧ shape.ne0 % blckSize type = 0)
  let n ← runChecked shape.nelements
  demand (n / blckSize type ≤ sizeMax / typeSize type)
  return type

/-- A tensor whose strides follow from its shape and its type. -/
def tensorInfo (name : Bytes) (shape : GgmlShape) (type offset : Nat) : GgufTensorInfo :=
  let nb1 := typeSize type * (shape.ne0 / blckSize type) % sizeRange
  let nb2 := nb1 * shape.ne1 % sizeRange
  let nb3 := nb2 * shape.ne2 % sizeRange
  ⟨name, shape, type, typeSize type, nb1, nb2, nb3, offset⟩

def maxName : Nat := 64

/-- The directory entry of one tensor, after those in `done`. -/
def readTensorInfo (done : List GgufTensorInfo) : ByteReader GgufTensorInfo := do
  let name ← readString
  demand (name.length < maxName)
  let name := cstr name
  demand (∀ t ∈ done, name ≠ t.name)
  let shape ← readShape
  let type ← readTensorType shape
  let offset ← number 8
  return tensorInfo name shape type offset

def magic : Bytes := ascii "GGUF"

def readVersion : ByteReader Nat := do
  let version ← number 4
  demand (version ≠ 0 ∧ version &&& 0xFFFF ≠ 0 ∧ version ≠ 1 ∧ version ≤ 3)
  return version

/-- A count of structures of this many bytes. -/
def readCount (structSize : Nat) : ByteReader Nat := do
  let n ← number 8
  demand (n ≤ int64Max ∧ n ≤ sizeMax / structSize)
  return n

/-- `sizeof(struct gguf_tensor_info)` -/
def tensorInfoSize : Nat := 344

/-- `sizeof(struct gguf_kv)` -/
def kvSize : Nat := 88

/-- All that stands before the data. -/
def readHeader : ByteReader GgufContext := do
  let first ← take magic.length
  demand (first = magic)
  let version ← readVersion
  let nTensors ← readCount tensorInfoSize
  let nKv ← readCount kvSize
  let kv ← each readKv nKv []
  runChecked (ensure (kv.length = nKv) .assertFailed)
  let alignment ← readAlignment kv
  let info ← each readTensorInfo nTensors []
  runChecked (ensure (info.length = nTensors) .assertFailed)
  return { version, kv, info, alignment }

/-- The size of the data, of which `size` bytes belong to tensors before these. -/
def dataSize (alignment : Nat) : List GgufTensorInfo → Nat → ByteReader Nat
  | [], size => pure size
  | t :: info, size => do
    demand (t.offset = size)
    let padded := ggmlPad t.nbytes alignment
    demand (padded ≤ sizeMax - size)
    dataSize alignment info (size + padded)

/-- `ggml_tensor_overhead` -/
def tensorOverhead : Nat := 368

/-- The binary blob, when the tensors are asked for with their data. -/
def readBlob (params : GgufInitParams) (nTensors size : Nat) : ByteReader (Option Bytes) :=
  if params.ctx then
    if params.noAlloc then do
      demand (nTensors ≠ 0 → tensorOverhead ≤ sizeMax / nTensors)
      return none
    else do
      demand (tensorOverhead ≤ sizeMax / (nTensors + 1))
      demand (size ≤ sizeMax - (nTensors + 1) * tensorOverhead)
      some <$> take size
  else
    pure none

def seekData (ctx : GgufContext) : ByteReader Unit :=
  if ctx.info = [] then pure ()
  else do
    let position ← ByteReader.tell
    seek (ggmlPad position ctx.alignment)

/-- `gguf_init_from_reader` -/
def initFromReader (params : GgufInitParams) : ByteReader GgufContext := do
  let ctx ← readHeader
  seekData ctx
  let offset ← ByteReader.tell
  let size ← dataSize ctx.alignment ctx.info 0
  let data ← readBlob params ctx.info.length size
  return { ctx with offset, size, data }

/-- `gguf_init_from_file`, of a file with these contents. -/
def initFromFile (params : GgufInitParams) (file : Bytes) : Except ReadStop GgufContext :=
  (initFromReader params ⟨[], file⟩).map Prod.fst

-- ---------------------------------------------------------------------------
-- Writing
-- ---------------------------------------------------------------------------

def writeString (s : Bytes) : Bytes := littleEndian 8 s.length ++ s

/-- The elements of an entry. A `bool` is written as zero or one. -/
def writeValue (kv : GgufKv) : Checked Bytes :=
  match kv.type with
  | .string => .ok (kv.dataString.flatMap writeString)
  | .bool => .ok (kv.data.map fun b => if b = 0 then 0 else 1)
  | .array => .error .assertFailed
  | _ => .ok kv.data

/-- `write(const struct gguf_kv &)` -/
def writeKv (kv : GgufKv) : Checked Bytes := do
  let ne ← kv.getNe
  let value ← writeValue kv
  let type := littleEndian 4 kv.type.code
  if kv.isArray then
    return writeString kv.key ++
      (littleEndian 4 GgufType.array.code ++ type ++ littleEndian 8 ne) ++ value
  else
    return writeString kv.key ++ type ++ value

/-- `write_tensor_meta` -/
def writeTensorMeta (t : GgufTensorInfo) : Bytes :=
  let nDims := t.shape.nDims
  writeString t.name ++ littleEndian 4 nDims ++
    (t.shape.dims.take nDims).flatMap (littleEndian 8) ++ littleEndian 4 t.type ++
    littleEndian 8 t.offset

/-- `pad` after this many bytes. The alignment bounds the loop. -/
def padLoop (alignment : Nat) : Nat → Nat → Bytes
  | 0, _ => []
  | fuel + 1, written =>
    if written % alignment = 0 then [] else 0 :: padLoop alignment fuel (written + 1)

def pad (alignment written : Nat) : Bytes := padLoop alignment alignment written

/-- The header with its padding. -/
def writeMeta (ctx : GgufContext) : Checked Bytes := do
  let kv ← ctx.kv.mapM writeKv
  let text := magic ++ littleEndian 4 ctx.version ++ littleEndian 8 ctx.info.length ++
    littleEndian 8 ctx.kv.length ++ kv.flatten ++ ctx.info.flatMap writeTensorMeta
  return text ++ pad ctx.alignment text.length

/-- `write_tensor_data`; `memory` is what the tensor's `data` points to. -/
def writeTensorData (alignment offsetData : Nat) (buf : Bytes) (t : GgufTensorInfo)
    (memory : Bytes) : Checked Bytes := do
  ensure (buf.length - offsetData = t.offset) .assertFailed
  ensure t.isContiguous .assertFailed
  ensure (t.nbytes ≤ memory.length) .outOfBounds
  let buf := buf ++ memory.take t.nbytes
  return buf ++ pad alignment buf.length

def writeData (alignment offsetData : Nat) :
    List (GgufTensorInfo × Bytes) → Bytes → Checked Bytes
  | [], buf => .ok buf
  | (t, memory) :: tensors, buf => do
    let buf ← writeTensorData alignment offsetData buf t memory
    writeData alignment offsetData tensors buf

/-- `gguf_write_out` of a context whose tensors point to `memory`. -/
def writeOut (ctx : GgufContext) (memory : List Bytes) : Checked Bytes := do
  let buf ← writeMeta ctx
  writeData ctx.alignment buf.length (ctx.info.zip memory) buf

end Gguf

end LibEmbedding
