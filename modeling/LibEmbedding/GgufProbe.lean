import LibEmbedding.Cjson

/-!
# GGUF headers

`gguf_probe.hpp`: typed reads of a parsed header. A header is what the vendored reader
makes of a file: the first entry of each key and of each tensor name. The reader refuses
arrays of more than `GGUF_MAX_ARRAY_ELEMENTS` elements.
-/

namespace LibEmbedding

open Foundation

/-- A `float`. Converting a `double` gives one, so both widths are stored as one. -/
inductive CFloat where
  | nan
  | infinite (negative : Bool)
  | finite (value : ℚ)
  deriving DecidableEq

/-- `x <= 0.0f`, which is false of a NaN. -/
def CFloat.nonpositive : CFloat → Bool
  | .nan => false
  | .infinite negative => negative
  | .finite value => decide (value ≤ 0)

/-- `x >= 0.0f`, which is false of a NaN as well. -/
def CFloat.nonnegative : CFloat → Bool
  | .nan => false
  | .infinite negative => !negative
  | .finite value => decide (0 ≤ value)

def maxArrayElements : Nat := 1024 * 1024 * 1024

inductive GgufValue where
  | uint8 (value : UInt8)
  | uint32 (value : UInt32)
  | int32 (value : CInt)
  | float32 (value : CFloat)
  | float64 (value : CFloat)
  | bool (value : Bool)
  | string (value : Bytes)
  | strings (value : List Bytes) (bounded : value.length ≤ maxArrayElements)
  | other

inductive GgmlType where
  | f32
  | other
  deriving DecidableEq, Repr

/-- A tensor of the directory: its type, its four dimensions and its dequantised values. -/
structure GgufTensor where
  type : GgmlType
  ne0 : Nat
  ne1 : Nat
  ne2 : Nat
  ne3 : Nat
  hasData : Bool
  value : Nat → Nat → Nat → Nat → ℚ

structure GgufHeader where
  key : Bytes → Option GgufValue
  tensor : Bytes → Option GgufTensor
  nTensors : Nat

/-- A handle on a header, `none` when there is no context. -/
abbrev Probe := Option GgufHeader

namespace Probe

def find (p : Probe) (key : Bytes) : Option GgufValue := p.bind (·.key key)

def getI32 (p : Probe) (key : Bytes) : Option Int :=
  match p.find key with
  | some (.int32 value) => some value.val
  | some (.uint32 value) => if intMax < value.toNat then none else some value.toNat
  | _ => none

def getStr (p : Probe) (key : Bytes) : Option Bytes :=
  match p.find key with
  | some (.string value) => some (cstr value)
  | _ => none

def getF32 (p : Probe) (key : Bytes) : Option CFloat :=
  match p.find key with
  | some (.float32 value) => some value
  | some (.float64 value) => some value
  | _ => none

def getBool (p : Probe) (key : Bytes) : Option Bool :=
  match p.find key with
  | some (.bool value) => some value
  | some (.uint8 value) => some (decide (value ≠ 0))
  | _ => none

/-- An empty array is no array. -/
def getArrStr (p : Probe) (key : Bytes) : Option (List Bytes) :=
  match p.find key with
  | some (.strings value _) => if value = [] then none else some (value.map cstr)
  | _ => none

/-- `<arch>.<field>` -/
def archKey (arch : Bytes) (field : String) : Bytes := arch ++ ascii "." ++ ascii field

def getArchI32 (p : Probe) (arch : Bytes) (field : String) : Option Int :=
  if arch = [] then none else p.getI32 (archKey arch field)

def getArchF32 (p : Probe) (arch : Bytes) (field : String) : Option CFloat :=
  if arch = [] then none else p.getF32 (archKey arch field)

def tensor (p : Probe) (name : Bytes) : Option GgufTensor := p.bind (·.tensor name)

def hasTensor (p : Probe) (name : Bytes) : Bool := (p.tensor name).isSome

/-- The number of elements; a zero dimension means a malformed file. -/
def tensorNumel (p : Probe) (name : Bytes) : Option Nat :=
  match p.tensor name with
  | some t =>
    if t.ne0 = 0 ∨ t.ne1 = 0 ∨ t.ne2 = 0 ∨ t.ne3 = 0 then none
    else some (t.ne0 * t.ne1 * t.ne2 * t.ne3)
  | none => none

/-- What is read as an `int32_t` is one. -/
theorem getI32_fits {p : Probe} (h : p.getI32 key = some v) : FitsInt v := by
  unfold getI32 at h
  split at h
  · rename_i value _
    cases h
    exact value.property
  · split at h
    · cases h
    · rename_i value _ hle
      cases h
      have hmin : intMin ≤ 0 := by decide
      exact ⟨by omega, not_lt.mp hle⟩
  · cases h

theorem getArrStr_ne_nil {p : Probe} (h : p.getArrStr key = some tokens) : tokens ≠ [] := by
  unfold getArrStr at h
  split at h
  · split at h
    · cases h
    · rename_i hne
      cases h
      simpa using hne
  · cases h

/-- The reader keeps the size of an array an `int`. -/
theorem getArrStr_bounded {p : Probe} (h : p.getArrStr key = some tokens) :
    tokens.length ≤ maxArrayElements := by
  unfold getArrStr at h
  split at h
  · rename_i value hbounded _
    split at h
    · cases h
    · cases h
      rwa [List.length_map]
  · cases h

end Probe

end LibEmbedding
