import LibEmbedding.CorpusFingerprint
import LibEmbedding.GgufFile

/-!
# GGUF files come back

What `gguf_write_out` makes of a context that is well formed, `gguf_init_from_reader` reads as the
same context, with the bytes of every tensor in place.
-/

namespace LibEmbedding

open Foundation Foundation.ByteReader Gguf

-- ---------------------------------------------------------------------------
-- Well-formed contexts
-- ---------------------------------------------------------------------------

/-- The number of values of an entry. -/
def GgufKv.ne (kv : GgufKv) : Nat :=
  if kv.type = .string then kv.dataString.length else kv.data.length / kv.type.size

structure GgufKv.Valid (kv : GgufKv) : Prop where
  key : kv.key ≠ []
  keyLength : kv.key.length ≤ maxStringLength
  type : kv.type ≠ .array
  count : if kv.isArray then kv.ne ≤ maxArrayElements else kv.ne = 1
  strings : kv.type = .string → kv.data = [] ∧ ∀ s ∈ kv.dataString, s.length ≤ maxStringLength
  numbers : kv.type ≠ .string → kv.dataString = [] ∧ kv.data.length = kv.ne * kv.type.size
  bools : kv.type = .bool → ∀ b ∈ kv.data, b = 0 ∨ b = 1

structure GgufTensorInfo.Valid (t : GgufTensorInfo) : Prop where
  name : t.name.length < maxName
  noNul : 0 ∉ t.name
  dims : ∀ ne ∈ t.shape.dims, ne ≤ int64Max
  type : t.type < typeTraits.length
  rows : blckSize t.type ≠ 0 ∧ t.shape.ne0 % blckSize t.type = 0
  elements : ∃ n, t.shape.nelements = .ok n ∧ representable t.shape n ∧
    n / blckSize t.type ≤ sizeMax / typeSize t.type
  strides : t = tensorInfo t.name t.shape t.type t.offset
  offset : t.offset < sizeRange

/-- The alignment the entries ask for. -/
def alignmentOf (kv : List GgufKv) : Option Nat :=
  match findKey kv alignmentKey with
  | none => some 32
  | some entry => if entry.kvType = .uint32 then some (ofLittleEndian entry.data) else none

/-- The data of the tensors follows that of `size` bytes, tensor by tensor. -/
def InSequence (alignment : Nat) : List GgufTensorInfo → Nat → Prop
  | [], _ => True
  | t :: info, size => t.offset = size ∧ size + ggmlPad t.nbytes alignment ≤ sizeMax ∧
    InSequence alignment info (size + ggmlPad t.nbytes alignment)

def paddedSize (alignment : Nat) (info : List GgufTensorInfo) : Nat :=
  (info.map fun t => ggmlPad t.nbytes alignment).sum

structure GgufContext.Valid (ctx : GgufContext) : Prop where
  version : ctx.version = 2 ∨ ctx.version = 3
  kv : ∀ kv ∈ ctx.kv, kv.Valid
  keys : (ctx.kv.map GgufKv.key).Nodup
  kvCount : ctx.kv.length ≤ sizeMax / kvSize
  alignment : alignmentOf ctx.kv = some ctx.alignment
  powerOfTwo : ctx.alignment ≠ 0 ∧ ctx.alignment &&& (ctx.alignment - 1) = 0
  info : ∀ t ∈ ctx.info, t.Valid
  names : (ctx.info.map GgufTensorInfo.name).Nodup
  infoCount : ctx.info.length ≤ sizeMax / tensorInfoSize
  offsets : InSequence ctx.alignment ctx.info 0

/-- The dimensions behind the last one above 1 are not zero: `ggml_n_dims` leaves them out. -/
def GgmlShape.Written (s : GgmlShape) : Prop :=
  s.ne3 ≠ 0 ∧ (s.ne2 = 0 → 1 < s.ne3) ∧ (s.ne1 = 0 → 1 < s.ne2 ∨ 1 < s.ne3)

instance (s : GgmlShape) : Decidable s.Written := inferInstanceAs (Decidable (_ ∧ _))

-- ---------------------------------------------------------------------------
-- Padding
-- ---------------------------------------------------------------------------

namespace Gguf

theorem and_aligned {k x : Nat} (hk : k ≤ 64) (hx : x < 2 ^ 64) :
    x &&& (2 ^ 64 - 2 ^ k) = x / 2 ^ k * 2 ^ k := by
  apply Nat.eq_of_testBit_eq
  intro i
  have hpow : 2 ^ k - 1 + 1 = 2 ^ k := Nat.sub_add_cancel Nat.one_le_two_pow
  have hle : 2 ^ k ≤ 2 ^ 64 := Nat.pow_le_pow_right (by norm_num) hk
  have hmask : (2 ^ 64 - 2 ^ k).testBit i = (decide (i < 64) && !decide (i < k)) := by
    have h := Nat.testBit_two_pow_sub_succ (x := 2 ^ k - 1) (n := 64) (by omega) i
    rwa [hpow, Nat.testBit_two_pow_sub_one] at h
  rw [Nat.testBit_and, hmask, Nat.testBit_mul_two_pow, Nat.testBit_div_two_pow]
  by_cases hik : i < k
  · simp [hik, Nat.not_le.mpr hik]
  · have hki : k ≤ i := Nat.not_lt.mp hik
    by_cases hi : i < 64
    · simp [hik, hi, hki, Nat.sub_add_cancel hki]
    · have hbit : x.testBit i = false :=
        Nat.testBit_lt_two_pow (hx.trans_le (Nat.pow_le_pow_right (by norm_num) (by omega)))
      simp [hik, hi, hki, Nat.sub_add_cancel hki, hbit]

/-- An alignment the reader accepts. -/
def IsAlignment (a : Nat) : Prop := ∃ k ≤ 32, a = 2 ^ k

theorem IsAlignment.pos (h : IsAlignment a) : 0 < a := by
  obtain ⟨k, -, rfl⟩ := h
  exact Nat.two_pow_pos k

theorem isAlignment (h : a ≠ 0 ∧ a &&& (a - 1) = 0) (hlt : a < 256 ^ 4) : IsAlignment a := by
  obtain ⟨k, rfl⟩ := Nat.ne_zero_and_sub_one_eq_zero_iff_isPowerOfTwo.mp h
  have hk : 2 ^ k < 2 ^ 32 := hlt.trans_eq (by norm_num)
  exact ⟨k, (Nat.pow_lt_pow_iff_right (by norm_num)).mp hk |>.le, rfl⟩

theorem ggmlPad_div (ha : IsAlignment a) (x : Nat) :
    ggmlPad x a = (x + a - 1) % sizeRange / a * a := by
  obtain ⟨k, hk, rfl⟩ := ha
  have hlt : (x + 2 ^ k - 1) % 2 ^ 64 < 2 ^ 64 := Nat.mod_lt _ (Nat.two_pow_pos 64)
  exact and_aligned (hk.trans (by norm_num)) hlt

theorem ggmlPad_mod (ha : IsAlignment a) (x : Nat) : ggmlPad x a % a = 0 := by
  rw [ggmlPad_div ha]
  exact Nat.mul_mod_left _ a

theorem ggmlPad_eq (ha : IsAlignment a) (hx : x + a ≤ sizeRange) :
    ggmlPad x a = (x + a - 1) / a * a := by
  have hpos := ha.pos
  rw [ggmlPad_div ha, Nat.mod_eq_of_lt (by omega)]

theorem padLoop_eq {a : Nat} (ha : 0 < a) (hfuel : (a - w % a) % a ≤ fuel) :
    padLoop a fuel w = List.replicate ((a - w % a) % a) 0 := by
  induction fuel generalizing w with
  | zero =>
    rw [Nat.le_zero.mp hfuel]
    rfl
  | succ fuel ih =>
    have hmod := Nat.mod_lt w ha
    unfold padLoop
    split
    · rename_i hzero
      simp [hzero]
    · rename_i hne
      have hleft : (a - w % a) % a = a - w % a := Nat.mod_eq_of_lt (by omega)
      have hnext : (a - (w + 1) % a) % a + 1 = (a - w % a) % a := by
        rw [hleft, Nat.add_mod]
        by_cases hlast : w % a + 1 = a
        · by_cases hone : a = 1
          · omega
          · rw [Nat.mod_eq_of_lt (show 1 < a by omega), hlast]
            simp
            omega
        · rw [Nat.mod_eq_of_lt (show 1 < a by omega),
            Nat.mod_eq_of_lt (show w % a + 1 < a by omega), Nat.mod_eq_of_lt (by omega)]
          omega
      rw [ih (by omega), ← hnext, List.replicate_succ]

theorem length_pad (ha : IsAlignment a) (hw : w + a ≤ sizeRange) :
    w + (pad a w).length = ggmlPad w a := by
  have hpos := ha.pos
  have hmod := Nat.mod_lt w hpos
  have hw' := Nat.div_add_mod w a
  have hcount : (a - w % a) % a ≤ a := (Nat.mod_lt _ hpos).le
  rw [ggmlPad_eq ha hw, pad, padLoop_eq hpos hcount, List.length_replicate]
  have hcomm : w / a * a = a * (w / a) := Nat.mul_comm _ _
  by_cases hzero : w % a = 0
  · have hdiv : (w + a - 1) / a = w / a := by
      rw [Nat.div_eq_iff hpos]
      omega
    rw [hdiv, hzero, Nat.sub_zero, Nat.mod_self, Nat.add_zero]
    omega
  · have hsucc : (w / a + 1) * a = w / a * a + a := Nat.succ_mul _ _
    have hdiv : (w + a - 1) / a = w / a + 1 := by
      rw [Nat.div_eq_iff hpos]
      omega
    rw [hdiv, Nat.mod_eq_of_lt (show a - w % a < a by omega)]
    omega

theorem pad_of_aligned (ha : 0 < a) (hw : w % a = 0) : pad a (w + n) = pad a n := by
  unfold pad
  rw [padLoop_eq ha (Nat.mod_lt _ ha).le, padLoop_eq ha (Nat.mod_lt _ ha).le, Nat.add_mod, hw,
    Nat.zero_add, Nat.mod_mod]

-- ---------------------------------------------------------------------------
-- Entries
-- ---------------------------------------------------------------------------

theorem accepts_readString (h : s.length ≤ maxStringLength) :
    Accepts readString (writeString s) s := by
  have hlt : s.length < 256 ^ 8 := h.trans_lt (by norm_num [maxStringLength])
  exact (accepts_number hlt).bind (Accepts.guard h (accepts_take s))

theorem ofCode_code (type : GgufType) : GgufType.ofCode type.code = some type := by
  cases type <;> rfl

theorem code_lt (type : GgufType) : type.code < 256 ^ 4 := by
  cases type <;> norm_num [GgufType.code]

/-- What stands between the key and the value of an entry. -/
def encodeType (kv : GgufKv) : Bytes :=
  if kv.isArray then
    littleEndian 4 GgufType.array.code ++ littleEndian 4 kv.type.code ++ littleEndian 8 kv.ne
  else littleEndian 4 kv.type.code

def encodeValue (kv : GgufKv) : Bytes :=
  if kv.type = .string then kv.dataString.flatMap writeString else kv.data

def encodeKv (kv : GgufKv) : Bytes := writeString kv.key ++ (encodeType kv ++ encodeValue kv)

theorem maxArrayElements_lt : maxArrayElements < 256 ^ 8 := by norm_num [maxArrayElements]

/-- As many values as `readType` is told of. -/
def countOf (kv : GgufKv) : Nat := if kv.isArray then kv.ne else 1

theorem accepts_readType {kv : GgufKv} (hkv : kv.Valid) :
    Accepts readType (encodeType kv) ⟨kv.isArray, kv.type.code, countOf kv⟩ := by
  have hcount := hkv.count
  unfold readType encodeType countOf
  cases harray : kv.isArray with
  | true =>
    rw [harray, if_pos rfl] at hcount
    rw [if_pos rfl, if_pos rfl, List.append_assoc]
    refine (accepts_number (code_lt .array)).bind ?_
    rw [if_pos rfl]
    refine (accepts_number (code_lt kv.type)).bind ?_
    exact (accepts_number (hcount.trans_lt maxArrayElements_lt)).map fun n =>
      (⟨true, kv.type.code, n⟩ : KvType)
  | false =>
    have hscalar : kv.type.code ≠ GgufType.array.code := fun h => by
      have heq := congrArg GgufType.ofCode h
      rw [ofCode_code, ofCode_code] at heq
      exact hkv.type (Option.some.inj heq)
    rw [if_neg Bool.false_ne_true, if_neg Bool.false_ne_true, ← List.append_nil (littleEndian _ _)]
    refine (accepts_number (code_lt kv.type)).bind ?_
    rw [if_neg hscalar]
    exact Accepts.pure _

/-- Bytes of a whole number of elements, element by element. -/
theorem exists_elements {n size : Nat} {data : Bytes} (h : data.length = n * size) :
    ∃ items : List Bytes, items.length = n ∧ items.flatten = data ∧
      ∀ a ∈ items, a.length = size := by
  induction n generalizing data with
  | zero =>
    rw [Nat.zero_mul, List.length_eq_zero_iff] at h
    exact ⟨[], rfl, h.symm, fun a ha => absurd ha List.not_mem_nil⟩
  | succ n ih =>
    rw [Nat.succ_mul] at h
    have hrest : (data.drop size).length = n * size := by
      rw [List.length_drop]
      omega
    obtain ⟨items, hlength, hflatten, hall⟩ := ih hrest
    refine ⟨data.take size :: items, by rw [List.length_cons, hlength], ?_, ?_⟩
    · rw [List.flatten_cons, hflatten, List.take_append_drop]
    · intro a ha
      rcases List.mem_cons.mp ha with rfl | ha
      · exact List.length_take_of_le (by omega)
      · exact hall a ha

/-- The bytes of a `bool` are zero or one. -/
def Settled (type : GgufType) (data : Bytes) : Prop := type = .bool → ∀ b ∈ data, b = 0 ∨ b = 1

theorem map_settled {data : Bytes} (h : ∀ b ∈ data, b = 0 ∨ b = 1) :
    data.map (fun b => if b = 0 then 0 else 1) = data := by
  have hsame : ∀ b ∈ data, (if b = 0 then (0 : UInt8) else 1) = b := by
    intro b hb
    rcases h b hb with rfl | rfl <;> rfl
  rw [List.map_congr_left hsame, List.map_id']

theorem accepts_readElement {type : GgufType} (hlength : data.length = type.size)
    (hsettled : Settled type data) : Accepts (readElement type) data data := by
  have htake := accepts_take data
  rw [hlength] at htake
  have hvalue : (if type = .bool then data.map fun b => if b = 0 then (0 : UInt8) else 1
      else data) = data := by
    split
    · rename_i hbool
      exact map_settled (hsettled hbool)
    · rfl
  have hread := htake.map fun bytes : Bytes =>
    if type = .bool then bytes.map fun b => if b = 0 then (0 : UInt8) else 1 else bytes
  rw [hvalue] at hread
  exact hread

theorem accepts_readArray {type : GgufType} (hn : n ≤ maxArrayElements)
    (hlength : data.length = n * type.size) (hsettled : Settled type data) :
    Accepts (readArray type n) data data := by
  obtain ⟨items, rfl, rfl, hall⟩ := exists_elements hlength
  have helements : ∀ a ∈ items, Accepts (readElement type) a a := by
    intro a ha
    apply accepts_readElement (hall a ha)
    intro hbool b hb
    exact hsettled hbool b (List.mem_flatten_of_mem ha hb)
  have hmany : Accepts (many items.length (readElement type)) (items.flatMap id) items :=
    accepts_many helements
  rw [List.flatMap_id] at hmany
  exact Accepts.guard hn (Accepts.expect hlength.ge (hmany.map List.flatten))

theorem length_writeString (s : Bytes) : (writeString s).length = 8 + s.length := by
  rw [writeString, List.length_append, length_littleEndian]

theorem length_strings (strings : List Bytes) :
    strings.length * 8 ≤ (strings.flatMap writeString).length := by
  induction strings with
  | nil => exact Nat.le_refl 0
  | cons s strings ih =>
    rw [List.flatMap_cons, List.length_append, List.length_cons, length_writeString]
    omega

theorem accepts_readStrings {strings : List Bytes} (hn : strings.length ≤ maxArrayElements)
    (h : ∀ s ∈ strings, s.length ≤ maxStringLength) :
    Accepts (readStrings strings.length) (strings.flatMap writeString) strings :=
  Accepts.guard hn (Accepts.expect (length_strings strings)
    (accepts_many fun s hs => accepts_readString (h s hs)))

theorem readValue_string (key : Bytes) (isArray : Bool) (n : Nat) :
    readValue key isArray n (some .string) =
      (if isArray then readStrings n else List.singleton <$> readString) >>= fun strings =>
        pure ⟨key, isArray, .string, [], strings⟩ := by
  cases isArray <;> rfl

theorem readValue_plain (key : Bytes) (isArray : Bool) (n : Nat) {type : GgufType}
    (hstring : type ≠ .string) (harray : type ≠ .array) :
    readValue key isArray n (some type) =
      (if isArray then readArray type n else readElement type) >>= fun data =>
        pure ⟨key, isArray, type, data, []⟩ := by
  cases type with
  | string => exact absurd rfl hstring
  | array => exact absurd rfl harray
  | _ => cases isArray <;> rfl

theorem accepts_readValue {kv : GgufKv} (hkv : kv.Valid) :
    Accepts (readValue kv.key kv.isArray (countOf kv) (some kv.type)) (encodeValue kv) kv := by
  obtain ⟨key, isArray, type, data, dataString⟩ := kv
  have hcount := hkv.count
  by_cases hstring : type = .string
  · obtain ⟨hdata, hstrings⟩ := hkv.strings hstring
    subst hstring hdata
    simp only [GgufKv.ne, if_pos] at hcount
    have hread : Accepts (if isArray then readStrings (countOf ⟨key, isArray, .string, [],
        dataString⟩) else List.singleton <$> readString) (dataString.flatMap writeString)
        dataString := by
      cases isArray with
      | true => exact accepts_readStrings hcount hstrings
      | false =>
        obtain ⟨s, rfl⟩ := List.length_eq_one_iff.mp hcount
        have hs := (accepts_readString (hstrings s List.mem_cons_self)).map List.singleton
        rwa [← List.append_nil (writeString s)] at hs
    rw [readValue_string]
    exact hread.map fun strings => (⟨key, isArray, .string, [], strings⟩ : GgufKv)
  · obtain ⟨hnone, hlength⟩ := hkv.numbers hstring
    simp only at hnone hlength
    subst hnone
    rw [readValue_plain _ _ _ hstring hkv.type, encodeValue, if_neg hstring]
    have hread : Accepts (if isArray then readArray type (countOf ⟨key, isArray, type, data, []⟩)
        else readElement type) data data := by
      cases isArray with
      | true => exact accepts_readArray hcount hlength hkv.bools
      | false =>
        have hone : GgufKv.ne ⟨key, false, type, data, []⟩ = 1 := hcount
        rw [hone, Nat.one_mul] at hlength
        exact accepts_readElement hlength hkv.bools
    exact hread.map fun data => (⟨key, isArray, type, data, []⟩ : GgufKv)

theorem accepts_readKv {kv : GgufKv} (hkv : kv.Valid) {done : List GgufKv}
    (hnew : ∀ kv' ∈ done, kv.key ≠ kv'.key) : Accepts (readKv done) (encodeKv kv) kv := by
  refine (accepts_readString hkv.keyLength).bind ?_
  refine Accepts.guard hkv.key (Accepts.guard hnew ?_)
  refine (accepts_readType hkv).bind ?_
  rw [ofCode_code]
  exact accepts_readValue hkv

theorem writeKv_eq {kv : GgufKv} (hkv : kv.Valid) : writeKv kv = .ok (encodeKv kv) := by
  obtain ⟨key, isArray, type, data, dataString⟩ := kv
  have hcount := hkv.count
  have hone : isArray = true ∨ GgufKv.ne ⟨key, isArray, type, data, dataString⟩ = 1 := by
    cases isArray with
    | true => exact .inl rfl
    | false => exact .inr hcount
  have hne : GgufKv.getNe ⟨key, isArray, type, data, dataString⟩ =
      .ok (GgufKv.ne ⟨key, isArray, type, data, dataString⟩) := by
    unfold GgufKv.getNe
    by_cases hstring : type = .string
    · simp only [GgufKv.ne, hstring, if_pos] at hone ⊢
      rw [ensure_pos hone]
      rfl
    · have hsize : type.size ≠ 0 := by
        have htype := hkv.type
        cases type <;> first | exact absurd rfl hstring | exact absurd rfl htype | decide
      have hlength := (hkv.numbers hstring).2
      simp only [GgufKv.ne, if_neg hstring] at hone hlength ⊢
      have hmod : data.length % type.size = 0 := by
        rw [hlength]
        exact Nat.mul_mod_left _ _
      rw [ensure_pos hsize, ok_bind, ensure_pos hmod, ok_bind, ensure_pos hone]
      rfl
  have hvalue : writeValue ⟨key, isArray, type, data, dataString⟩ =
      .ok (encodeValue ⟨key, isArray, type, data, dataString⟩) := by
    have htype := hkv.type
    have hbools := hkv.bools
    cases type with
    | array => exact absurd rfl htype
    | bool => exact congrArg Except.ok (map_settled (hbools rfl))
    | _ => rfl
  rw [writeKv, hne, ok_bind, hvalue, ok_bind]
  cases isArray with
  | true => simp [encodeKv, encodeType, pure, Except.pure]
  | false => simp [encodeKv, encodeType, pure, Except.pure]

-- ---------------------------------------------------------------------------
-- The directory
-- ---------------------------------------------------------------------------

theorem ok_getValU32 {kv : GgufKv} (hkv : kv.Valid) (htype : kv.kvType = .uint32) :
    kv.getValU32 = .ok (ofLittleEndian kv.data) ∧ kv.data.length = 4 := by
  obtain ⟨key, isArray, type, data, dataString⟩ := kv
  have hcount := hkv.count
  cases isArray with
  | true => cases htype
  | false =>
    obtain rfl : type = .uint32 := htype
    have hone : GgufKv.ne ⟨key, false, .uint32, data, dataString⟩ = 1 := hcount
    have hlength := (hkv.numbers (by simp)).2
    rw [hone] at hlength
    have hfour : data.length = 4 := hlength
    refine ⟨?_, hfour⟩
    simp [GgufKv.getValU32, GgufKv.getNe, GgufType.size, hfour, pure, Except.pure,
      List.take_of_length_le hfour.le]

theorem alignmentOf_lt {kv : List GgufKv} (hkv : ∀ entry ∈ kv, entry.Valid)
    (h : alignmentOf kv = some a) : a < 256 ^ 4 := by
  unfold alignmentOf at h
  split at h
  · cases h
    norm_num
  · rename_i entry hfind
    split at h
    · rename_i htype
      cases h
      have hlength := (ok_getValU32 (hkv entry (List.mem_of_find?_eq_some hfind)) htype).2
      exact (ofLittleEndian_lt entry.data).trans_eq (by rw [hlength])
    · cases h

theorem isAlignment_of_valid {ctx : GgufContext} (h : ctx.Valid) :
    IsAlignment ctx.alignment :=
  isAlignment h.powerOfTwo (alignmentOf_lt h.kv h.alignment)

theorem accepts_readAlignment {kv : List GgufKv} (hkv : ∀ entry ∈ kv, entry.Valid)
    (h : alignmentOf kv = some a) (hpower : a ≠ 0 ∧ a &&& (a - 1) = 0) :
    Accepts (readAlignment kv) [] a := by
  unfold alignmentOf at h
  unfold readAlignment
  cases hfind : findKey kv alignmentKey with
  | none =>
    rw [hfind] at h
    cases h
    exact (Accepts.pure 32).bind (Accepts.guard hpower (Accepts.pure 32))
  | some entry =>
    rw [hfind] at h
    simp only [Option.ite_none_right_eq_some, Option.some.injEq] at h
    obtain ⟨htype, rfl⟩ := h
    have hvalue := (ok_getValU32 (hkv entry (List.mem_of_find?_eq_some hfind)) htype).1
    exact Accepts.guard htype (Accepts.checked hvalue (Accepts.guard hpower (Accepts.pure _)))

theorem int64Max_lt : int64Max < 256 ^ 8 := by norm_num [int64Max]

theorem accepts_readDim (h : ne ≤ int64Max) : Accepts readDim (littleEndian 8 ne) ne := by
  rw [← List.append_nil (littleEndian 8 ne)]
  exact (accepts_number (h.trans_lt int64Max_lt)).bind (Accepts.guard h (Accepts.pure ne))

/-- The dimensions that are written give the shape, with a one for each of the others. -/
theorem shape_of_dims {s : GgmlShape} (hs : s.Written) :
    (⟨(s.dims.take s.nDims).getD 0 1, (s.dims.take s.nDims).getD 1 1,
      (s.dims.take s.nDims).getD 2 1, (s.dims.take s.nDims).getD 3 1⟩ : GgmlShape) = s := by
  obtain ⟨ne0, ne1, ne2, ne3⟩ := s
  obtain ⟨hne3, hne2, hne1⟩ := hs
  simp only at hne3 hne2 hne1
  unfold GgmlShape.nDims GgmlShape.dims
  simp only
  split
  · rfl
  · have : ne3 = 1 := by omega
    subst this
    split
    · rfl
    · have : ne2 = 1 := by omega
      subst this
      split
      · rfl
      · have : ne1 = 1 := by omega
        subst this
        rfl

theorem nDims_le (s : GgmlShape) : s.nDims ≤ 4 := by
  unfold GgmlShape.nDims
  repeat' split
  all_goals omega

def encodeShape (s : GgmlShape) : Bytes :=
  littleEndian 4 s.nDims ++ (s.dims.take s.nDims).flatMap (littleEndian 8)

theorem accepts_readShape {s : GgmlShape} (hs : s.Written) (hdims : ∀ ne ∈ s.dims, ne ≤ int64Max)
    (hn : s.nelements = .ok n) (hrepresentable : representable s n) :
    Accepts readShape (encodeShape s) s := by
  have hle := nDims_le s
  have hlt : s.nDims < 256 ^ 4 := hle.trans_lt (by norm_num)
  have hlength : (s.dims.take s.nDims).length = s.nDims := List.length_take_of_le hle
  have hmany : Accepts (many s.nDims readDim) ((s.dims.take s.nDims).flatMap (littleEndian 8))
      (s.dims.take s.nDims) := by
    have hall : ∀ ne ∈ s.dims.take s.nDims, Accepts readDim (littleEndian 8 ne) ne := fun ne hne =>
      accepts_readDim (hdims ne (List.mem_of_mem_take hne))
    have h := accepts_many hall
    rwa [hlength] at h
  have hrest : Accepts (runChecked s.nelements >>= fun n =>
      demand (representable s n) >>= fun _ => pure s) [] s :=
    Accepts.checked hn (Accepts.guard hrepresentable (Accepts.pure s))
  have hshape := shape_of_dims hs
  rw [← List.append_nil (encodeShape s), encodeShape, List.append_assoc]
  refine (accepts_number hlt).bind (Accepts.guard hle (hmany.bind ?_))
  rw [hshape]
  exact hrest

theorem accepts_readTensorType {t : GgufTensorInfo} (ht : t.Valid) :
    Accepts (readTensorType t.shape) (littleEndian 4 t.type) t.type := by
  obtain ⟨n, hn, -, hsize⟩ := ht.elements
  have hlt : t.type < 256 ^ 4 := ht.type.trans (by norm_num [typeTraits])
  rw [← List.append_nil (littleEndian 4 t.type)]
  refine (accepts_number hlt).bind ?_
  refine Accepts.guard ht.type (Accepts.guard ht.rows (Accepts.checked hn ?_))
  exact Accepts.guard hsize (Accepts.pure t.type)

theorem writeTensorMeta_eq (t : GgufTensorInfo) : writeTensorMeta t =
    writeString t.name ++ (encodeShape t.shape ++ (littleEndian 4 t.type ++
      littleEndian 8 t.offset)) := by
  simp [writeTensorMeta, encodeShape]

theorem accepts_readTensorInfo {t : GgufTensorInfo} (ht : t.Valid) (hs : t.shape.Written)
    {done : List GgufTensorInfo} (hnew : ∀ t' ∈ done, t.name ≠ t'.name) :
    Accepts (readTensorInfo done) (writeTensorMeta t) t := by
  obtain ⟨n, hn, hrepresentable, -⟩ := ht.elements
  have hname : t.name.length ≤ maxStringLength :=
    ht.name.le.trans (by norm_num [maxName, maxStringLength])
  rw [writeTensorMeta_eq]
  refine (accepts_readString hname).bind (Accepts.guard ht.name ?_)
  rw [cstr_eq ht.noNul]
  refine Accepts.guard hnew ?_
  refine (accepts_readShape hs ht.dims hn hrepresentable).bind ?_
  refine (accepts_readTensorType ht).bind ?_
  have hlt : t.offset < 256 ^ 8 := ht.offset.trans_eq (by norm_num [sizeRange])
  have hoffset := (accepts_number hlt).map (tensorInfo t.name t.shape t.type)
  rw [← ht.strides] at hoffset
  exact hoffset

-- ---------------------------------------------------------------------------
-- The header
-- ---------------------------------------------------------------------------

theorem accepts_readCount (h : n ≤ sizeMax / structSize) (hsize : 1 < structSize) :
    Accepts (readCount structSize) (littleEndian 8 n) n := by
  have hhalf : sizeMax / structSize ≤ int64Max := by
    have htwo : sizeMax / structSize ≤ sizeMax / 2 := Nat.div_le_div_left hsize (by norm_num)
    exact htwo.trans (by norm_num [sizeMax, sizeRange, int64Max])
  have hlt : n < 256 ^ 8 := (h.trans hhalf).trans_lt int64Max_lt
  rw [← List.append_nil (littleEndian 8 n)]
  exact (accepts_number hlt).bind (Accepts.guard ⟨h.trans hhalf, h⟩ (Accepts.pure n))

def encodeHeader (ctx : GgufContext) : Bytes :=
  magic ++ (littleEndian 4 ctx.version ++ (littleEndian 8 ctx.info.length ++
    (littleEndian 8 ctx.kv.length ++ (ctx.kv.flatMap encodeKv ++
      ctx.info.flatMap writeTensorMeta))))

/-- The fields the header gives. -/
def headerOf (ctx : GgufContext) : GgufContext :=
  { version := ctx.version, kv := ctx.kv, info := ctx.info, alignment := ctx.alignment }

theorem accepts_readVersion (h : v = 2 ∨ v = 3) : Accepts readVersion (littleEndian 4 v) v := by
  have hversion : v ≠ 0 ∧ v &&& 0xFFFF ≠ 0 ∧ v ≠ 1 ∧ v ≤ 3 := by
    rcases h with rfl | rfl <;> decide
  rw [← List.append_nil (littleEndian 4 v)]
  exact (accepts_number (by omega)).bind (Accepts.guard hversion (Accepts.pure v))

theorem accepts_readHeader {ctx : GgufContext} (hctx : ctx.Valid)
    (hshape : ∀ t ∈ ctx.info, t.shape.Written) :
    Accepts readHeader (encodeHeader ctx) (headerOf ctx) := by
  have hkv : Accepts (each readKv ctx.kv.length []) (ctx.kv.flatMap encodeKv) ctx.kv := by
    refine accepts_each [] fun before kv behind heq => ?_
    refine accepts_readKv (hctx.kv kv (by simp [heq])) fun kv' hkv' hsame => ?_
    have hnodup := hctx.keys
    rw [heq, List.map_append, List.nodup_append] at hnodup
    exact hnodup.2.2 _ (List.mem_map_of_mem hkv') _ (by simp) hsame.symm
  have hinfo : Accepts (each readTensorInfo ctx.info.length []) (ctx.info.flatMap writeTensorMeta)
      ctx.info := by
    refine accepts_each [] fun before t behind heq => ?_
    have ht : t ∈ ctx.info := by simp [heq]
    refine accepts_readTensorInfo (hctx.info t ht) (hshape t ht) fun t' ht' hsame => ?_
    have hnodup := hctx.names
    rw [heq, List.map_append, List.nodup_append] at hnodup
    exact hnodup.2.2 _ (List.mem_map_of_mem ht') _ (by simp) hsame.symm
  have halignment := accepts_readAlignment hctx.kv hctx.alignment hctx.powerOfTwo
  refine (accepts_take magic).bind (Accepts.guard rfl ?_)
  refine (accepts_readVersion hctx.version).bind ?_
  refine (accepts_readCount hctx.infoCount (by decide)).bind ?_
  refine (accepts_readCount hctx.kvCount (by decide)).bind ?_
  refine hkv.bind (Accepts.checked (ensure_pos rfl) ?_)
  have hrest : Accepts (each readTensorInfo ctx.info.length [] >>= fun info =>
      runChecked (ensure (info.length = ctx.info.length) .assertFailed) >>= fun _ =>
        pure (headerOf { ctx with info }))
      (ctx.info.flatMap writeTensorMeta ++ []) (headerOf ctx) :=
    hinfo.bind (Accepts.checked (ensure_pos rfl) (Accepts.pure (headerOf ctx)))
  rw [List.append_nil] at hrest
  exact halignment.bind hrest

theorem writeMeta_eq {ctx : GgufContext} (hctx : ctx.Valid) : writeMeta ctx =
    .ok (encodeHeader ctx ++ pad ctx.alignment (encodeHeader ctx).length) := by
  have hkv : ctx.kv.mapM writeKv = .ok (ctx.kv.map encodeKv) :=
    mapM_eq fun kv h => writeKv_eq (hctx.kv kv h)
  rw [writeMeta, hkv, ok_bind]
  simp [encodeHeader, List.flatMap_def, pure, Except.pure]

-- ---------------------------------------------------------------------------
-- The data
-- ---------------------------------------------------------------------------

theorem isContiguous_tensorInfo (name : Bytes) (shape : GgmlShape) (type offset : Nat) :
    (tensorInfo name shape type offset).isContiguous := by
  simp [GgufTensorInfo.isContiguous, tensorInfo]

/-- Tensors with their bytes. -/
structure Stored (alignment : Nat) (tensors : List (GgufTensorInfo × Bytes)) : Prop where
  contiguous : ∀ p ∈ tensors, p.1.isContiguous
  length : ∀ p ∈ tensors, p.2.length = p.1.nbytes
  fits : ∀ p ∈ tensors, p.1.nbytes + alignment ≤ sizeRange

theorem Stored.tail (h : Stored a (p :: tensors)) : Stored a tensors where
  contiguous q hq := h.contiguous q (List.mem_cons_of_mem p hq)
  length q hq := h.length q (List.mem_cons_of_mem p hq)
  fits q hq := h.fits q (List.mem_cons_of_mem p hq)

def encodeData (alignment : Nat) (tensors : List (GgufTensorInfo × Bytes)) : Bytes :=
  tensors.flatMap fun p => p.2 ++ pad alignment p.1.nbytes

theorem Stored.length_padded (ha : IsAlignment a) (h : Stored a (p :: tensors)) :
    (p.2 ++ pad a p.1.nbytes).length = ggmlPad p.1.nbytes a := by
  rw [List.length_append, h.length p List.mem_cons_self,
    length_pad ha (h.fits p List.mem_cons_self)]

theorem length_encodeData (ha : IsAlignment a) (h : Stored a tensors) :
    (encodeData a tensors).length = paddedSize a (tensors.map Prod.fst) := by
  induction tensors with
  | nil => rfl
  | cons p tensors ih =>
    have htail := ih h.tail
    simp only [encodeData, paddedSize, List.flatMap_cons, List.map_cons, List.sum_cons,
      List.length_append] at htail ⊢
    rw [htail, ← h.length_padded ha, List.length_append]

theorem writeData_eq (ha : IsAlignment a) (h : Stored a tensors)
    (hseq : InSequence a (tensors.map Prod.fst) size) (hbase : base % a = 0) (hsize : size % a = 0)
    (hbuf : buf.length = base + size) :
    writeData a base tensors buf = .ok (buf ++ encodeData a tensors) := by
  induction tensors generalizing size buf with
  | nil => simp [writeData, encodeData]
  | cons p tensors ih =>
    obtain ⟨t, memory⟩ := p
    obtain ⟨hoffset, -, hrest⟩ := hseq
    have hoffset : t.offset = size := hoffset
    have hlength : memory.length = t.nbytes := h.length (t, memory) List.mem_cons_self
    have hfits : t.nbytes + a ≤ sizeRange := h.fits (t, memory) List.mem_cons_self
    have hposition : buf.length - base = t.offset := by omega
    have hpad : pad a (buf ++ memory).length = pad a t.nbytes := by
      rw [List.length_append, hbuf, hlength]
      apply pad_of_aligned ha.pos
      rw [Nat.add_mod, hbase, hsize]
      exact Nat.zero_mod a
    have hwrite : writeTensorData a base buf t memory = .ok (buf ++ memory ++ pad a t.nbytes) := by
      rw [writeTensorData, ensure_pos hposition, ok_bind,
        ensure_pos (h.contiguous (t, memory) List.mem_cons_self), ok_bind,
        ensure_pos hlength.ge, ok_bind, List.take_of_length_le hlength.le, ← hpad]
      rfl
    have hnext : (buf ++ memory ++ pad a t.nbytes).length = base + (size + ggmlPad t.nbytes a) := by
      have hpadded := length_pad ha hfits
      rw [List.length_append, List.length_append]
      omega
    have haligned : (size + ggmlPad t.nbytes a) % a = 0 := by
      rw [Nat.add_mod, hsize, ggmlPad_mod ha]
      exact Nat.zero_mod a
    rw [writeData, hwrite, ok_bind, ih h.tail hrest haligned hnext]
    simp [encodeData]

theorem accepts_dataSize (h : InSequence a info size) :
    Accepts (dataSize a info size) [] (size + paddedSize a info) := by
  induction info generalizing size with
  | nil => exact Accepts.pure size
  | cons t info ih =>
    obtain ⟨hoffset, hfits, hrest⟩ := h
    have hroom : ggmlPad t.nbytes a ≤ sizeMax - size := by omega
    have htail := ih hrest
    rw [Nat.add_assoc] at htail
    exact Accepts.guard hoffset (Accepts.guard hroom htail)

/-- The bytes at the offset of a tensor are its own. -/
theorem data_at_offset (ha : IsAlignment a) (h : Stored a tensors) (front : Bytes)
    (hseq : InSequence a (tensors.map Prod.fst) front.length) (hp : p ∈ tensors) :
    ((front ++ encodeData a tensors).drop p.1.offset).take p.1.nbytes = p.2 := by
  induction tensors generalizing front with
  | nil => cases hp
  | cons q tensors ih =>
    obtain ⟨hoffset, -, hrest⟩ := hseq
    have hsplit : encodeData a (q :: tensors) =
        q.2 ++ pad a q.1.nbytes ++ encodeData a tensors := List.flatMap_cons
    rcases List.mem_cons.mp hp with rfl | hp
    · rw [hoffset, List.drop_left, hsplit, List.append_assoc,
        ← h.length p List.mem_cons_self, List.take_left]
    · rw [← h.length_padded ha, ← List.length_append] at hrest
      rw [hsplit, ← List.append_assoc]
      exact ih h.tail _ hrest hp

-- ---------------------------------------------------------------------------
-- Files
-- ---------------------------------------------------------------------------

/-- What is written fits the 64-bit sizes of the reader. -/
structure Room (ctx : GgufContext) : Prop where
  header : (encodeHeader ctx).length + ctx.alignment ≤ sizeRange
  tensors : ∀ t ∈ ctx.info, t.nbytes + ctx.alignment ≤ sizeRange
  memory : (ctx.info.length + 1) * tensorOverhead + paddedSize ctx.alignment ctx.info ≤ sizeMax

theorem stored {ctx : GgufContext} (hctx : ctx.Valid) (hroom : Room ctx)
    (hmemory : List.Forall₂ (fun t bytes => bytes.length = t.nbytes) ctx.info memory) :
    Stored ctx.alignment (ctx.info.zip memory) := by
  obtain ⟨-, hzip⟩ := List.forall₂_iff_zip.mp hmemory
  refine ⟨fun p hp => ?_, fun p hp => hzip hp, fun p hp => ?_⟩
  · have ht := hctx.info p.1 (List.of_mem_zip hp).1
    rw [ht.strides]
    exact isContiguous_tensorInfo _ _ _ _
  · exact hroom.tensors p.1 (List.of_mem_zip hp).1

theorem accepts_blob {ctx : GgufContext} (hroom : Room ctx)
    (hblob : blob.length = paddedSize ctx.alignment ctx.info) :
    Accepts (readBlob ⟨false, true⟩ ctx.info.length (paddedSize ctx.alignment ctx.info)) blob
      (some blob) := by
  have hmemory := hroom.memory
  have hoverhead : tensorOverhead ≤ sizeMax / (ctx.info.length + 1) := by
    apply (Nat.le_div_iff_mul_le (by omega)).mpr
    rw [Nat.mul_comm]
    omega
  have hsize : paddedSize ctx.alignment ctx.info ≤
      sizeMax - (ctx.info.length + 1) * tensorOverhead := by omega
  have htake := (accepts_take blob).map some
  rw [hblob] at htake
  exact Accepts.guard hoverhead (Accepts.guard hsize htake)

/-- From the end of the header to the data. -/
theorem seekData_eq {ctx : GgufContext} (ha : IsAlignment ctx.alignment) (hroom : Room ctx)
    (hblob : ctx.info = [] → blob = []) :
    ∃ before rest, seekData (headerOf ctx)
      ⟨encodeHeader ctx, pad ctx.alignment (encodeHeader ctx).length ++ blob⟩ =
      .ok ((), ⟨before, blob ++ rest⟩) := by
  by_cases hinfo : ctx.info = []
  · have hseek : seekData (headerOf ctx) = pure () := if_pos hinfo
    rw [hseek, hblob hinfo]
    exact ⟨_, _, rfl⟩
  · have hseek : seekData (headerOf ctx) = ByteReader.tell >>= fun position =>
        seek (ggmlPad position ctx.alignment) := if_neg hinfo
    have hposition := length_pad ha hroom.header
    rw [← List.length_append] at hposition
    refine ⟨encodeHeader ctx ++ pad ctx.alignment (encodeHeader ctx).length, [], ?_⟩
    rw [hseek, bind_apply, ByteReader.tell, ok_bind, seek, ByteStream.at, ByteStream.whole,
      ← List.append_assoc, ← hposition, if_pos (by simp), List.take_left, List.drop_left,
      List.append_nil]

/-- Reading what was written gives the context back, and every tensor its bytes. -/
theorem read_write {ctx : GgufContext} (hctx : ctx.Valid) (hroom : Room ctx)
    (hshape : ∀ t ∈ ctx.info, t.shape.Written)
    (hmemory : List.Forall₂ (fun t bytes => bytes.length = t.nbytes) ctx.info memory) :
    ∃ file ctx', writeOut ctx memory = .ok file ∧ initFromFile ⟨false, true⟩ file = .ok ctx' ∧
      ctx'.version = ctx.version ∧ ctx'.kv = ctx.kv ∧ ctx'.info = ctx.info ∧
      ctx'.alignment = ctx.alignment ∧
      ctx'.info.map ctx'.tensorData = memory.map some := by
  have ha := isAlignment_of_valid hctx
  have hlength := hmemory.length_eq
  have hfst : (ctx.info.zip memory).map Prod.fst = ctx.info := List.map_fst_zip hlength.le
  have hstored := stored hctx hroom hmemory
  have hsequence : InSequence ctx.alignment ((ctx.info.zip memory).map Prod.fst) 0 := by
    rw [hfst]
    exact hctx.offsets
  have hheader := length_pad ha hroom.header
  rw [← List.length_append] at hheader
  let blob := encodeData ctx.alignment (ctx.info.zip memory)
  have hblob : blob.length = paddedSize ctx.alignment ctx.info := by
    rw [length_encodeData ha hstored, hfst]
  have hempty : ctx.info = [] → blob = [] := by
    intro hinfo
    rw [hinfo] at hblob
    exact List.length_eq_zero_iff.mp hblob
  -- writing
  have hwrite : writeOut ctx memory = .ok
      (encodeHeader ctx ++ pad ctx.alignment (encodeHeader ctx).length ++ blob) := by
    rw [writeOut, writeMeta_eq hctx, ok_bind]
    apply writeData_eq ha hstored hsequence _ (Nat.zero_mod _) rfl
    rw [hheader]
    exact ggmlPad_mod ha _
  -- reading
  obtain ⟨before, rest, hseek⟩ := seekData_eq ha hroom hempty
  have hrun := accepts_readHeader hctx hshape []
    (pad ctx.alignment (encodeHeader ctx).length ++ blob)
  have hsize := accepts_dataSize hctx.offsets
  rw [Nat.zero_add] at hsize
  have htail : Accepts (dataSize ctx.alignment ctx.info 0 >>= fun size =>
      readBlob ⟨false, true⟩ ctx.info.length size >>= fun data =>
        pure { headerOf ctx with offset := before.length, size, data }) ([] ++ (blob ++ []))
      { headerOf ctx with
        offset := before.length, size := paddedSize ctx.alignment ctx.info, data := some blob } :=
    hsize.bind ((accepts_blob hroom hblob).bind (Accepts.pure _))
  rw [List.append_nil, List.nil_append] at htail
  refine ⟨_, { headerOf ctx with
    offset := before.length, size := paddedSize ctx.alignment ctx.info, data := some blob },
    hwrite, ?_, rfl, rfl, rfl, rfl, ?_⟩
  · rw [List.append_assoc, initFromFile, initFromReader, bind_apply, hrun, ok_bind, bind_apply]
    rw [List.nil_append, hseek, ok_bind, bind_apply, ByteReader.tell, ok_bind]
    exact congrArg (Except.map Prod.fst) (htail before rest)
  · have hdata : ∀ p ∈ ctx.info.zip memory,
        (blob.drop p.1.offset).take p.1.nbytes = p.2 :=
      fun p hp => data_at_offset ha hstored [] hsequence hp
    have hsnd : (ctx.info.zip memory).map Prod.snd = memory := List.map_snd_zip hlength.ge
    calc ctx.info.map (fun t => some ((blob.drop t.offset).take t.nbytes))
      _ = ((ctx.info.zip memory).map Prod.fst).map
          (fun t => some ((blob.drop t.offset).take t.nbytes)) := by rw [hfst]
      _ = (ctx.info.zip memory).map (some ∘ Prod.snd) := by
        rw [List.map_map]
        exact List.map_congr_left fun p hp => congrArg some (hdata p hp)
      _ = memory.map some := by rw [← List.map_map, hsnd]

def sampleContext : GgufContext where
  kv := [⟨ascii "a", false, .uint8, [7], []⟩,
    ⟨ascii "b", true, .string, [], [ascii "x", ascii "yz"]⟩]
  info := [tensorInfo (ascii "t") ⟨3, 1, 1, 1⟩ 0 0, tensorInfo (ascii "u") ⟨32, 2, 1, 1⟩ 8 32]

def sampleMemory : List Bytes := [List.replicate 12 0, List.replicate 68 0]

theorem sampleContext_valid : sampleContext.Valid where
  version := .inr rfl
  kv := by
    simp only [sampleContext, List.forall_mem_cons]
    refine ⟨?_, ?_, fun _ h => absurd h List.not_mem_nil⟩ <;>
    exact {
      key := by decide +kernel
      keyLength := by decide +kernel
      type := by decide
      count := by decide +kernel
      strings := by decide +kernel
      numbers := by decide +kernel
      bools := by decide +kernel }
  keys := by decide +kernel
  kvCount := by decide +kernel
  alignment := by decide +kernel
  powerOfTwo := by decide
  info := by
    simp only [sampleContext, List.forall_mem_cons]
    refine ⟨?_, ?_, fun _ h => absurd h List.not_mem_nil⟩
    · exact {
        name := by decide +kernel
        noNul := by decide +kernel
        dims := by decide +kernel
        type := by decide
        rows := by decide
        elements := ⟨3, by decide +kernel, by decide +kernel, by decide +kernel⟩
        strides := rfl
        offset := by decide +kernel }
    · exact {
        name := by decide +kernel
        noNul := by decide +kernel
        dims := by decide +kernel
        type := by decide
        rows := by decide
        elements := ⟨64, by decide +kernel, by decide +kernel, by decide +kernel⟩
        strides := rfl
        offset := by decide +kernel }
  names := by decide +kernel
  infoCount := by decide +kernel
  offsets := ⟨rfl, by decide +kernel, rfl, by decide +kernel, trivial⟩

theorem read_write_sample :
    ∃ file ctx', writeOut sampleContext sampleMemory = .ok file ∧
      initFromFile ⟨false, true⟩ file = .ok ctx' ∧
      ctx'.version = sampleContext.version ∧ ctx'.kv = sampleContext.kv ∧
      ctx'.info = sampleContext.info ∧ ctx'.alignment = sampleContext.alignment ∧
      ctx'.info.map ctx'.tensorData = sampleMemory.map some :=
  read_write sampleContext_valid
    ⟨by decide +kernel, by decide +kernel, by decide +kernel⟩ (by decide +kernel)
    (.cons (by decide +kernel) (.cons (by decide +kernel) .nil))

end Gguf

end LibEmbedding
