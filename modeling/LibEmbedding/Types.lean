import LibEmbedding.Foundation.Checked

/-!
# Types shared by the C API

Status codes of `error.h`, backends of `types.h`, C strings, and the outcome of
a call that may throw a C++ exception.
-/

namespace LibEmbedding

open Foundation

inductive Status where
  | ok
  | invalidArgument
  | outOfMemory
  | onnxRuntime
  | tokenizer
  | download
  | io
  | modelNotFound
  | unsupported
  | batchSize
  | llama
  | cacheMiss
  | gguf
  deriving DecidableEq, Repr

inductive BackendType where
  | onnx
  | llamacpp
  deriving DecidableEq, Repr

/-- The bytes of a string. -/
abbrev Bytes := List UInt8

instance : LawfulBEq Bytes := inferInstance

/-- A property of bytes is checked on all of them. -/
theorem forall_byte {P : UInt8 → Prop} (h : ∀ n < 256, P (UInt8.ofNat n)) (c : UInt8) : P c := by
  have hc := h c.toNat (UInt8.toNat_lt c)
  rwa [UInt8.ofNat_toNat] at hc

/-- The bytes of an ASCII literal. -/
def ascii (s : String) : Bytes := s.toList.map fun c => UInt8.ofNat c.toNat

/-- A C string ends at its first NUL. -/
def cstr (s : Bytes) : Bytes := s.takeWhile (· ≠ 0)

/-- The conversion of a 64-bit count to an `int`. -/
def toInt32 (n : Nat) : Int := Int.bmod n (2 ^ 32)

theorem toInt32_eq (h : n < 2 ^ 31) : toInt32 n = n := by
  exact Int.bmod_eq_of_le (by omega) (by omega)

theorem toInt32_le (n : Nat) : toInt32 n ≤ intMax := by
  unfold toInt32 intMax
  have hpos : 0 < 2 ^ 32 := by norm_num
  have hlt := Int.bmod_lt (x := (n : Int)) hpos
  omega

/-- What a call came to: a value, or a C++ exception. -/
inductive Outcome (α : Type u) where
  | returned (value : α)
  | threw
  deriving DecidableEq, Repr

/-- Fresh memory. Its contents are the instance's, so a result proved for every
instance does not depend on them. -/
def malloc [Inhabited α] (n : Nat) : List α := List.replicate n default

@[simp] theorem length_malloc [Inhabited α] (n : Nat) : (malloc n : List α).length = n :=
  List.length_replicate

/-- `LEMBED_DEFAULT_BATCH_SIZE` -/
def defaultBatchSize : Int := 256

/-- What a creator makes of the batch size it gets is positive. -/
theorem createdBatchSize_pos (batchSize : Int) :
    0 < if 0 < batchSize then batchSize else defaultBatchSize := by
  split
  · assumption
  · decide

end LibEmbedding
