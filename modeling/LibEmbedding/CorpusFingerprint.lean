import LibEmbedding.TextTuningCache
import LibEmbedding.Foundation.Framing

/-!
# The fingerprint of a corpus

`corpus_fingerprint` hashes the texts one after another, each behind the eight bytes of its
length. No two corpora give the same bytes, and the hash tells bytes apart that differ once.
-/

namespace LibEmbedding

open Foundation

/-- The bytes that are hashed. -/
def corpusStream (texts : List Bytes) : Bytes :=
  texts.flatMap fun t => lengthBytes t.length ++ t

/-- The text of a C array, a null pointer counts as an empty text. -/
def textAt (texts : Option (List (Option Bytes))) (i : Nat) : Checked Bytes :=
  match texts with
  | none => .ok []
  | some texts => (get texts i).map fun t => cstr (t.getD [])

/-- `corpus_fingerprint` of an array of C strings. -/
def corpusFingerprintC (texts : Option (List (Option Bytes))) (nTexts : CInt) : Checked Bytes := do
  let h ← forUpTo nTexts.val.toNat (fun h i => do
    let t ← textAt texts i
    return fnv1aUpdate (fnv1aUpdate h (lengthBytes t.length)) t) fnvOffset
  return hex16 h

/-- Corpora that differ by one byte of one text. -/
def OneByteEdit (corpus corpus' : List Bytes) : Prop :=
  ∃ before t t' rest, DifferOnce t t' ∧ corpus = before ++ t :: rest ∧
    corpus' = before ++ t' :: rest

-- ---------------------------------------------------------------------------
-- What is hashed
-- ---------------------------------------------------------------------------

theorem length_lengthBytes (n : Nat) : (lengthBytes n).length = 8 := by
  rw [lengthBytes, List.length_map, List.length_range]

theorem lengthBytes_injective (n : Nat) (hn : n < 256 ^ 8) (m : Nat) (hm : m < 256 ^ 8)
    (h : lengthBytes n = lengthBytes m) : n = m := by
  refine digits_injective hn hm fun i hi => ?_
  have hbyte := List.map_inj_left.mp h i (List.mem_range.mpr hi)
  have hdigit := congrArg UInt8.toNat hbyte
  rwa [UInt8.toNat_ofNat', UInt8.toNat_ofNat', Nat.mod_mod, Nat.mod_mod] at hdigit

/-- A length in eight bytes. -/
def sizeCode : LengthCode UInt8 where
  header := lengthBytes
  width := 8
  bound := 256 ^ 8
  width_pos := Nat.succ_pos 7
  length_header := length_lengthBytes
  header_injective := lengthBytes_injective

theorem fnv1aUpdate_append (h : UInt64) (a b : Bytes) :
    fnv1aUpdate h (a ++ b) = fnv1aUpdate (fnv1aUpdate h a) b :=
  List.foldl_append

theorem foldl_texts (texts : List Bytes) (h : UInt64) :
    texts.foldl (fun h t => fnv1aUpdate (fnv1aUpdate h (lengthBytes t.length)) t) h =
      fnv1aUpdate h (corpusStream texts) := by
  induction texts generalizing h with
  | nil => rfl
  | cons t texts ih =>
    rw [List.foldl_cons, ih, corpusStream, corpusStream, List.flatMap_cons, fnv1aUpdate_append,
      fnv1aUpdate_append]

theorem corpusFingerprint_eq (texts : List Bytes) :
    corpusFingerprint texts = hex16 (fnv1aUpdate fnvOffset (corpusStream texts)) := by
  rw [corpusFingerprint, foldl_texts]

theorem cstr_eq {t : Bytes} (h : 0 ∉ t) : cstr t = t := by
  rw [cstr, List.takeWhile_eq_self_iff]
  intro c hc
  exact decide_eq_true fun hzero => h (hzero ▸ hc)

theorem forUpTo_texts {texts : List Bytes} (h : ∀ t ∈ texts, 0 ∉ t) (init : UInt64) :
    forUpTo texts.length (fun h i => do
      let t ← textAt (some (texts.map some)) i
      return fnv1aUpdate (fnv1aUpdate h (lengthBytes t.length)) t) init =
      .ok (fnv1aUpdate init (corpusStream texts)) := by
  induction texts generalizing init with
  | nil => rfl
  | cons t texts ih =>
    rw [List.forall_mem_cons] at h
    have hfirst : textAt (some ((t :: texts).map some)) 0 = .ok t := by
      show Except.ok (cstr t) = .ok t
      rw [cstr_eq h.1]
    rw [List.length_cons, forUpTo_cons, hfirst, ok_bind]
    refine (ih h.2 _).trans ?_
    rw [← foldl_texts, ← foldl_texts]
    rfl

-- ---------------------------------------------------------------------------
-- What the hash keeps apart
-- ---------------------------------------------------------------------------

/-- What undoes a multiplication by the odd prime. -/
def fnvInverse : UInt64 := 14886173955864302971

theorem mul_fnvPrime_injective : Function.Injective fun x : UInt64 => x * fnvPrime := by
  have hinverse : fnvPrime * fnvInverse = 1 := by decide
  have hundo : Function.LeftInverse (· * fnvInverse) fun x : UInt64 => x * fnvPrime := by
    intro x
    show x * fnvPrime * fnvInverse = x
    rw [UInt64.mul_assoc, hinverse, UInt64.mul_one]
  exact hundo.injective

theorem hashStep_injective (c : UInt8) :
    Function.Injective fun h : UInt64 => (h ^^^ c.toUInt64) * fnvPrime := by
  intro h h' heq
  exact (UInt64.xor_left_inj c.toUInt64).mp (mul_fnvPrime_injective heq)

theorem hashByte_injective (h : UInt64) :
    Function.Injective fun c : UInt8 => (h ^^^ c.toUInt64) * fnvPrime := by
  intro c c' heq
  have hbyte := (UInt64.xor_right_inj h).mp (mul_fnvPrime_injective heq)
  simpa using congrArg UInt64.toUInt8 hbyte

theorem fnv1aUpdate_ne {s t : Bytes} (hst : DifferOnce s t) (h : UInt64) :
    fnv1aUpdate h s ≠ fnv1aUpdate h t := by
  obtain ⟨before, a, b, rest, hab, rfl, rfl⟩ := hst.split
  exact foldl_ne hashStep_injective hashByte_injective hab before rest h

theorem hexDigit_injective : ∀ n < 16, ∀ m < 16, hexDigit n = hexDigit m → n = m := by
  decide

theorem hex16_injective : Function.Injective hex16 := by
  intro h h' heq
  have hdigits : ∀ i < 16, h.toNat / 16 ^ i % 16 = h'.toNat / 16 ^ i % 16 := by
    intro i hi
    refine hexDigit_injective _ (Nat.mod_lt _ (by decide)) _ (Nat.mod_lt _ (by decide)) ?_
    exact List.map_inj_left.mp heq i (List.mem_reverse.mpr (List.mem_range.mpr hi))
  have hlt : ∀ x : UInt64, x.toNat < 16 ^ 16 := fun x => x.toNat_lt
  exact UInt64.toNat_inj.mp (digits_injective (hlt h) (hlt h') hdigits)

theorem corpusFingerprint_ne (h : OneByteEdit corpus corpus') :
    corpusFingerprint corpus ≠ corpusFingerprint corpus' := by
  obtain ⟨before, t, t', rest, ht, rfl, rfl⟩ := h
  obtain ⟨first, a, b, last, hab, rfl, rfl⟩ := ht.split
  have hlength : (first ++ a :: last).length = (first ++ b :: last).length := by
    rw [List.length_append, List.length_append]
    rfl
  have hstream : ∀ c : UInt8, corpusStream (before ++ (first ++ c :: last) :: rest) =
      (corpusStream before ++ lengthBytes (first ++ c :: last).length ++ first) ++
        c :: (last ++ corpusStream rest) := by
    intro c
    simp [corpusStream]
  rw [corpusFingerprint_eq, corpusFingerprint_eq, hstream, hstream, hlength]
  exact fun heq => foldl_ne hashStep_injective hashByte_injective hab _ _ _ (hex16_injective heq)

theorem corpusFingerprintC_eq {texts : List Bytes} (h : ∀ t ∈ texts, 0 ∉ t) {n : CInt}
    (hn : n.val = texts.length) :
    corpusFingerprintC (some (texts.map some)) n = .ok (corpusFingerprint texts) := by
  have hcount : n.val.toNat = texts.length := by rw [hn, Int.toNat_natCast]
  rw [corpusFingerprintC, hcount, forUpTo_texts h, corpusFingerprint_eq]
  rfl

/-- A result tuned on one corpus is not read back for an edit of it. -/
theorem readTextCache_edited {r r' : TuningRequest} (h : OneByteEdit r.benchCorpus r'.benchCorpus)
    (info info' : TextModelInfo) (result : TuningResult) :
    readTextCache (textCacheDocument (r.identity info) result) (r'.identity info') = none := by
  rw [Option.eq_none_iff_forall_ne_some]
  intro found hfound
  have hsame := readTextCache_owner (TuningHost.legible_identity r info) hfound
  exact corpusFingerprint_ne h (congrArg CacheIdentity.corpus hsame)

theorem corpus_fingerprint :
    (∀ texts, corpusFingerprint texts = hex16 (fnv1aUpdate fnvOffset (corpusStream texts))) ∧
      (∀ texts texts' : List Bytes, (∀ t ∈ texts, t.length < 2 ^ 64) →
        (∀ t ∈ texts', t.length < 2 ^ 64) → corpusStream texts = corpusStream texts' →
        texts = texts') ∧
      (∀ texts : List Bytes, (∀ t ∈ texts, 0 ∉ t) → ∀ n : CInt, n.val = texts.length →
        corpusFingerprintC (some (texts.map some)) n = .ok (corpusFingerprint texts)) ∧
      (∀ s t : Bytes, DifferOnce s t → fnv1aUpdate fnvOffset s ≠ fnv1aUpdate fnvOffset t) ∧
      (∀ corpus corpus', OneByteEdit corpus corpus' →
        corpusFingerprint corpus ≠ corpusFingerprint corpus') ∧
      ∀ (r r' : TuningRequest) (info info' : TextModelInfo) (result : TuningResult),
        OneByteEdit r.benchCorpus r'.benchCorpus →
        readTextCache (textCacheDocument (r.identity info) result) (r'.identity info') = none := by
  refine ⟨corpusFingerprint_eq, fun texts texts' h h' heq => ?_, fun texts h n hn => ?_,
    fun s t h => fnv1aUpdate_ne h fnvOffset, fun _ _ h => corpusFingerprint_ne h,
    fun r r' info info' result h => readTextCache_edited h info info' result⟩
  · exact sizeCode.stream_injective h h' heq
  · exact corpusFingerprintC_eq h hn

/-- `{"ab", "c"}` and `{"ab", "d"}`. -/
theorem corpus_fingerprint_edit :
    corpusFingerprint [ascii "ab", ascii "c"] ≠ corpusFingerprint [ascii "ab", ascii "d"] ∧
      corpusFingerprintC (some [some (ascii "ab"), some (ascii "c")]) (clamp 2) =
        .ok (corpusFingerprint [ascii "ab", ascii "c"]) := by
  obtain ⟨-, -, hagree, -, hedit, -⟩ := corpus_fingerprint
  constructor
  · refine hedit _ _ ⟨[ascii "ab"], ascii "c", ascii "d", [], ⟨rfl, 0, by decide, ?_⟩, rfl, rfl⟩
    intro i hi
    cases i with
    | zero => rfl
    | succ i => exact absurd rfl hi
  · exact hagree [ascii "ab", ascii "c"] (by decide) (clamp 2) (by decide)

end LibEmbedding
