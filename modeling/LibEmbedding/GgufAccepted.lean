import LibEmbedding.GgufRoundTrip

/-!
# What the GGUF reader accepts

On any bytes the vendored reader ends with a well-formed context or refuses. The one step that is
not defined is the product of a tensor's dimensions, which it forms before it checks their sizes.
-/

namespace LibEmbedding

open Foundation Foundation.ByteReader Gguf

namespace Gguf

/-- The stops of a reader that forms products of dimensions. -/
abbrev Overflows (f : Fault) : Prop := f = .overflow

-- ---------------------------------------------------------------------------
-- Entries
-- ---------------------------------------------------------------------------

theorem yields_readString : Yields Overflows readString fun s => s.length ≤ maxStringLength := by
  refine (yields_number 8).bind fun size _ => ?_
  refine (yields_demand _).bind fun _ hsize => ?_
  exact (yields_take size).mono fun s hs => hs.le.trans hsize

theorem settled_map (data : Bytes) :
    ∀ b ∈ data.map fun b => if b = 0 then (0 : UInt8) else 1, b = 0 ∨ b = 1 := by
  simp only [List.mem_map]
  rintro b ⟨a, -, rfl⟩
  split
  · exact .inl rfl
  · exact .inr rfl

theorem yields_readElement (type : GgufType) : Yields Overflows (readElement type) fun data =>
    data.length = type.size ∧ Settled type data := by
  refine (yields_take type.size).bind fun bytes hbytes => Yields.pure ?_
  by_cases hbool : type = .bool
  · rw [if_pos hbool, List.length_map]
    exact ⟨hbytes, fun _ => settled_map bytes⟩
  · rw [if_neg hbool]
    exact ⟨hbytes, fun h => absurd h hbool⟩

theorem length_flatten_of {items : List Bytes} (h : ∀ a ∈ items, a.length = size) :
    items.flatten.length = items.length * size := by
  induction items with
  | nil => rw [List.flatten_nil, List.length_nil, List.length_nil, Nat.zero_mul]
  | cons a items ih =>
    rw [List.flatten_cons, List.length_append, List.length_cons, h a List.mem_cons_self,
      ih fun b hb => h b (List.mem_cons_of_mem a hb), Nat.succ_mul, Nat.add_comm]

theorem yields_readArray (type : GgufType) (n : Nat) :
    Yields Overflows (readArray type n) fun data =>
      n ≤ maxArrayElements ∧ data.length = n * type.size ∧ Settled type data := by
  refine (yields_demand _).bind fun _ hn => ?_
  refine (yields_expect _).bind fun _ _ => ?_
  refine (yields_many (yields_readElement type) n).bind fun items hitems => Yields.pure ?_
  obtain ⟨hall, rfl⟩ := hitems
  refine ⟨hn, length_flatten_of fun a ha => (hall a ha).1, fun hbool b hb => ?_⟩
  obtain ⟨a, ha, hb⟩ := List.mem_flatten.mp hb
  exact (hall a ha).2 hbool b hb

theorem yields_readStrings (n : Nat) : Yields Overflows (readStrings n) fun strings =>
    strings.length = n ∧ n ≤ maxArrayElements ∧ ∀ s ∈ strings, s.length ≤ maxStringLength := by
  refine (yields_demand _).bind fun _ hn => ?_
  refine (yields_expect _).bind fun _ _ => ?_
  exact (yields_many yields_readString n).mono fun strings h => ⟨h.2, hn, h.1⟩

theorem yields_readType : Yields Overflows readType fun t => t.isArray = false → t.n = 1 := by
  refine (yields_number 4).bind fun code _ => ?_
  split
  · refine (yields_number 4).bind fun element _ => (yields_number 8).bind fun n _ => Yields.pure ?_
    exact fun h => absurd h (by simp)
  · exact Yields.pure fun _ => rfl

theorem size_pos {type : GgufType} (hstring : type ≠ .string) (harray : type ≠ .array) :
    0 < type.size := by
  cases type with
  | string => exact absurd rfl hstring
  | array => exact absurd rfl harray
  | _ => decide

theorem yields_readValue {key : Bytes} (hkey : key ≠ []) (hlength : key.length ≤ maxStringLength)
    (isArray : Bool) (n : Nat) (hn : isArray = false → n = 1) (type : Option GgufType) :
    Yields Overflows (readValue key isArray n type) fun kv => kv.Valid ∧ kv.key = key := by
  cases type with
  | none => exact yields_refuse _
  | some type =>
    by_cases hstring : type = .string
    · subst hstring
      rw [readValue_string]
      have hread : Yields Overflows (if isArray then readStrings n
          else List.singleton <$> readString) fun strings =>
          (if isArray then strings.length ≤ maxArrayElements else strings.length = 1) ∧
            ∀ s ∈ strings, s.length ≤ maxStringLength := by
        cases isArray with
        | true =>
          refine (yields_readStrings n).mono fun strings h => ?_
          obtain ⟨rfl, hle, hall⟩ := h
          exact ⟨hle, hall⟩
        | false =>
          have hone : Yields Overflows (readString >>= fun s => pure [s]) fun strings =>
              strings.length = 1 ∧ ∀ s ∈ strings, s.length ≤ maxStringLength :=
            yields_readString.bind fun s hs => Yields.pure ⟨rfl, by simpa using hs⟩
          exact hone
      refine hread.bind fun strings hstrings => Yields.pure ⟨?_, rfl⟩
      exact {
        key := hkey
        keyLength := hlength
        type := by simp
        count := hstrings.1
        strings := fun _ => ⟨rfl, hstrings.2⟩
        numbers := fun h => absurd rfl h
        bools := fun h => absurd h (by simp) }
    · by_cases harray : type = .array
      · subst harray
        exact yields_refuse _
      · rw [readValue_plain _ _ _ hstring harray]
        have hread : Yields Overflows (if isArray then readArray type n else readElement type)
            fun data => (if isArray then n ≤ maxArrayElements else n = 1) ∧
              data.length = n * type.size ∧ Settled type data := by
          cases isArray with
          | true => exact yields_readArray type n
          | false =>
            obtain rfl := hn rfl
            refine (yields_readElement type).mono fun data h => ⟨rfl, ?_, h.2⟩
            rw [h.1, Nat.one_mul]
        refine hread.bind fun data hdata => Yields.pure ⟨?_, rfl⟩
        obtain ⟨hcount, hsize, hsettled⟩ := hdata
        have hne : GgufKv.ne ⟨key, isArray, type, data, []⟩ = n := by
          rw [GgufKv.ne, if_neg hstring, hsize]
          exact Nat.mul_div_cancel n (size_pos hstring harray)
        exact {
          key := hkey
          keyLength := hlength
          type := harray
          count := by rwa [hne]
          strings := fun h => absurd h hstring
          numbers := fun _ => ⟨rfl, by rwa [hne]⟩
          bools := hsettled }

theorem yields_readKv (done : List GgufKv) : Yields Overflows (readKv done) fun kv =>
    kv.Valid ∧ ∀ kv' ∈ done, kv.key ≠ kv'.key := by
  refine yields_readString.bind fun key hlength => ?_
  refine (yields_demand _).bind fun _ hkey => ?_
  refine (yields_demand _).bind fun _ hnew => ?_
  refine yields_readType.bind fun type htype => ?_
  refine (yields_readValue hkey hlength _ _ htype _).mono fun kv hkv => ⟨hkv.1, ?_⟩
  rw [hkv.2]
  exact hnew

theorem yields_readAlignment {kv : List GgufKv} (hkv : ∀ entry ∈ kv, entry.Valid) :
    Yields Overflows (readAlignment kv) fun a =>
      alignmentOf kv = some a ∧ a ≠ 0 ∧ a &&& (a - 1) = 0 := by
  unfold readAlignment alignmentOf
  cases hfind : findKey kv alignmentKey with
  | none =>
    refine (Yields.pure (P := fun a => a = 32) rfl).bind fun a ha => ?_
    refine (yields_demand _).bind fun _ hpower => Yields.pure ⟨?_, hpower⟩
    rw [ha]
  | some entry =>
    refine (yields_demand _).bind fun _ htype => ?_
    have hvalue := (ok_getValU32 (hkv entry (List.mem_of_find?_eq_some hfind)) htype).1
    have hread : Yields Overflows (runChecked entry.getValU32) fun a =>
        entry.getValU32 = .ok a := yields_runChecked fun f h => by
      rw [hvalue] at h
      cases h
    refine hread.bind fun a ha => ?_
    refine (yields_demand _).bind fun _ hpower => Yields.pure ⟨?_, hpower⟩
    rw [hvalue] at ha
    cases ha
    exact if_pos htype

-- ---------------------------------------------------------------------------
-- The directory
-- ---------------------------------------------------------------------------

theorem yields_readDim : Yields Overflows readDim fun ne => ne ≤ int64Max := by
  refine (yields_number 8).bind fun ne _ => ?_
  exact (yields_demand _).bind fun _ h => Yields.pure h

theorem mulInt64_error (h : mulInt64 a b = .error f) : f = .overflow := by
  unfold mulInt64 ensure at h
  split at h
  · cases h
  · cases h
    rfl

theorem bind_error {x : Checked α} {g : α → Checked β} (h : x >>= g = .error f) :
    x = .error f ∨ ∃ a, x = .ok a ∧ g a = .error f := by
  cases x with
  | error f' =>
    cases h
    exact .inl rfl
  | ok a => exact .inr ⟨a, rfl, h⟩

theorem nelements_error {s : GgmlShape} (h : s.nelements = .error f) : f = .overflow := by
  unfold GgmlShape.nelements at h
  rcases bind_error h with h | ⟨n, -, h⟩
  · exact mulInt64_error h
  · rcases bind_error h with h | ⟨n, -, h⟩
    · exact mulInt64_error h
    · exact mulInt64_error h

theorem yields_nelements (s : GgmlShape) :
    Yields Overflows (runChecked s.nelements) fun n => s.nelements = .ok n :=
  yields_runChecked fun _ h => nelements_error h

theorem getD_le {l : List Nat} (h : ∀ n ∈ l, n ≤ b) (hone : 1 ≤ b) (i : Nat) : l.getD i 1 ≤ b := by
  rw [List.getD_eq_getElem?_getD]
  cases hget : l[i]? with
  | none => exact hone
  | some n => exact h n (List.mem_of_getElem? hget)

theorem yields_readShape : Yields Overflows readShape fun s =>
    (∀ ne ∈ s.dims, ne ≤ int64Max) ∧ ∃ n, s.nelements = .ok n ∧ representable s n := by
  refine (yields_number 4).bind fun nDims _ => ?_
  refine (yields_demand _).bind fun _ _ => ?_
  refine (yields_many yields_readDim nDims).bind fun ne hne => ?_
  refine (yields_nelements _).bind fun n hn => ?_
  refine (yields_demand _).bind fun _ hrepresentable =>
    Yields.pure ⟨?_, n, hn, hrepresentable⟩
  have hone : 1 ≤ int64Max := by norm_num [int64Max]
  have hdim := getD_le hne.1 hone
  simp only [GgmlShape.dims, List.mem_cons, List.not_mem_nil, or_false]
  rintro d (rfl | rfl | rfl | rfl) <;> exact hdim _

theorem yields_readTensorType (s : GgmlShape) : Yields Overflows (readTensorType s) fun type =>
    type < typeTraits.length ∧ (blckSize type ≠ 0 ∧ s.ne0 % blckSize type = 0) ∧
      ∃ n, s.nelements = .ok n ∧ n / blckSize type ≤ sizeMax / typeSize type := by
  refine (yields_number 4).bind fun type _ => ?_
  refine (yields_demand _).bind fun _ htype => ?_
  refine (yields_demand _).bind fun _ hrows => ?_
  refine (yields_nelements s).bind fun n hn => ?_
  exact (yields_demand _).bind fun _ hsize => Yields.pure ⟨htype, hrows, n, hn, hsize⟩

theorem noNul_cstr (s : Bytes) : 0 ∉ cstr s := by
  intro h
  have hne := List.mem_takeWhile_imp h
  simp at hne

theorem length_cstr (s : Bytes) : (cstr s).length ≤ s.length :=
  (List.takeWhile_prefix _).length_le

theorem yields_readTensorInfo (done : List GgufTensorInfo) :
    Yields Overflows (readTensorInfo done) fun t =>
      t.Valid ∧ ∀ t' ∈ done, t.name ≠ t'.name := by
  refine yields_readString.bind fun name _ => ?_
  refine (yields_demand _).bind fun _ hname => ?_
  refine (yields_demand _).bind fun _ hnew => ?_
  refine yields_readShape.bind fun shape hshape => ?_
  refine (yields_readTensorType shape).bind fun type htype => ?_
  refine (yields_number 8).bind fun offset hoffset => Yields.pure ⟨?_, hnew⟩
  obtain ⟨hdims, n, hn, hrepresentable⟩ := hshape
  obtain ⟨hdefined, hrows, n', hn', hsize⟩ := htype
  rw [hn] at hn'
  cases hn'
  exact {
    name := (length_cstr name).trans_lt hname
    noNul := noNul_cstr name
    dims := hdims
    type := hdefined
    rows := hrows
    elements := ⟨n, hn, hrepresentable, hsize⟩
    strides := rfl
    offset := hoffset.trans_eq (by norm_num [sizeRange]) }

-- ---------------------------------------------------------------------------
-- The header
-- ---------------------------------------------------------------------------

theorem yields_readCount (structSize : Nat) :
    Yields Overflows (readCount structSize) fun n => n ≤ sizeMax / structSize := by
  refine (yields_number 8).bind fun n _ => ?_
  exact (yields_demand _).bind fun _ h => Yields.pure h.2

theorem version_of (h : v ≠ 0 ∧ v &&& 0xFFFF ≠ 0 ∧ v ≠ 1 ∧ v ≤ 3) : v = 2 ∨ v = 3 := by
  omega

theorem yields_readVersion : Yields Overflows readVersion fun v => v = 2 ∨ v = 3 := by
  refine (yields_number 4).bind fun v _ => ?_
  exact (yields_demand _).bind fun _ h => Yields.pure (version_of h)

/-- The entries or tensors read so far are well formed, and none has the name of another. -/
theorem nodup_append {f : α → Bytes} {done : List α} (h : (done.map f).Nodup)
    (hnew : ∀ b ∈ done, f a ≠ f b) : ((done ++ [a]).map f).Nodup := by
  rw [List.map_append, List.nodup_append]
  refine ⟨h, List.nodup_singleton _, ?_⟩
  simp only [List.mem_map, List.map_cons, List.map_nil, List.mem_singleton]
  rintro x ⟨b, hb, rfl⟩ y rfl hsame
  exact hnew b hb hsame.symm

theorem forall_append {P : α → Prop} {done : List α} (h : ∀ b ∈ done, P b) (ha : P a) :
    ∀ b ∈ done ++ [a], P b := by
  simp only [List.mem_append, List.mem_singleton]
  rintro b (hb | rfl)
  · exact h b hb
  · exact ha

theorem yields_readKvs (n : Nat) : Yields Overflows (each readKv n []) fun kv =>
    ((∀ entry ∈ kv, entry.Valid) ∧ (kv.map GgufKv.key).Nodup) ∧ kv.length = n := by
  have hread := yields_each
    (I := fun kv : List GgufKv => (∀ entry ∈ kv, entry.Valid) ∧ (kv.map GgufKv.key).Nodup)
    (fun done hdone => (yields_readKv done).mono fun kv hkv =>
      ⟨forall_append hdone.1 hkv.1, nodup_append hdone.2 hkv.2⟩) n
    ⟨fun _ h => absurd h List.not_mem_nil, List.nodup_nil⟩
  exact hread.mono fun kv h => ⟨h.1, by simpa using h.2⟩

theorem yields_readTensorInfos (n : Nat) : Yields Overflows (each readTensorInfo n []) fun info =>
    ((∀ t ∈ info, t.Valid) ∧ (info.map GgufTensorInfo.name).Nodup) ∧ info.length = n := by
  have hread := yields_each
    (I := fun info : List GgufTensorInfo =>
      (∀ t ∈ info, t.Valid) ∧ (info.map GgufTensorInfo.name).Nodup)
    (fun done hdone => (yields_readTensorInfo done).mono fun t ht =>
      ⟨forall_append hdone.1 ht.1, nodup_append hdone.2 ht.2⟩) n
    ⟨fun _ h => absurd h List.not_mem_nil, List.nodup_nil⟩
  exact hread.mono fun info h => ⟨h.1, by simpa using h.2⟩

theorem yields_length {l : List α} (h : l.length = n) :
    Yields Overflows (runChecked (ensure (l.length = n) .assertFailed)) fun _ => True := by
  rw [ensure_pos h]
  exact Yields.pure trivial

theorem yields_readHeader : Yields Overflows readHeader fun ctx =>
    InSequence ctx.alignment ctx.info 0 → ctx.Valid := by
  refine (yields_take _).bind fun first _ => ?_
  refine (yields_demand _).bind fun _ _ => ?_
  refine yields_readVersion.bind fun version hversion => ?_
  refine (yields_readCount tensorInfoSize).bind fun nTensors hnTensors => ?_
  refine (yields_readCount kvSize).bind fun nKv hnKv => ?_
  refine (yields_readKvs nKv).bind fun kv hkv => ?_
  obtain ⟨⟨hvalid, hkeys⟩, hlength⟩ := hkv
  refine (yields_length hlength).bind fun _ _ => ?_
  refine (yields_readAlignment hvalid).bind fun alignment halignment => ?_
  refine (yields_readTensorInfos nTensors).bind fun info hinfo => ?_
  obtain ⟨⟨hinfos, hnames⟩, hinfoLength⟩ := hinfo
  refine (yields_length hinfoLength).bind fun _ _ => Yields.pure fun hoffsets => ?_
  exact {
    version := hversion
    kv := hvalid
    keys := hkeys
    kvCount := hlength.trans_le hnKv
    alignment := halignment.1
    powerOfTwo := halignment.2
    info := hinfos
    names := hnames
    infoCount := hinfoLength.trans_le hnTensors
    offsets := hoffsets }

-- ---------------------------------------------------------------------------
-- The data
-- ---------------------------------------------------------------------------

theorem yields_dataSize (a : Nat) (info : List GgufTensorInfo) (size : Nat) :
    size ≤ sizeMax → Yields Overflows (dataSize a info size) fun n =>
      InSequence a info size ∧ n = size + paddedSize a info := by
  induction info generalizing size with
  | nil => exact fun _ => Yields.pure ⟨trivial, rfl⟩
  | cons t info ih =>
    intro hsize
    refine (yields_demand _).bind fun _ hoffset => ?_
    refine (yields_demand _).bind fun _ hroom => ?_
    have hnext : size + ggmlPad t.nbytes a ≤ sizeMax := by omega
    refine (ih _ hnext).mono fun n hn => ⟨⟨hoffset, hnext, hn.1⟩, ?_⟩
    rw [hn.2, Nat.add_assoc]
    rfl

theorem yields_readBlob (params : GgufInitParams) (nTensors size : Nat) :
    Yields Overflows (readBlob params nTensors size) fun data =>
      ∀ blob, data = some blob → blob.length = size := by
  unfold readBlob
  split
  · split
    · exact (yields_demand _).bind fun _ _ => Yields.pure fun _ h => nomatch h
    · refine (yields_demand _).bind fun _ _ => (yields_demand _).bind fun _ _ => ?_
      have htake : Yields Overflows (take size >>= fun blob => pure (some blob)) fun data =>
          ∀ blob, data = some blob → blob.length = size := by
        refine (yields_take size).bind fun bytes hbytes => Yields.pure fun blob h => ?_
        cases h
        exact hbytes
      exact htake
  · exact Yields.pure fun _ h => nomatch h

theorem yields_seekData (ctx : GgufContext) : Yields Overflows (seekData ctx) fun _ => True := by
  unfold seekData
  split
  · exact Yields.pure trivial
  · exact yields_tell.bind fun _ _ => yields_seek _

/-- What stands in a context that was read. -/
structure Read (ctx : GgufContext) : Prop where
  valid : ctx.Valid
  size : ctx.size = paddedSize ctx.alignment ctx.info
  data : ∀ blob, ctx.data = some blob → blob.length = ctx.size

theorem yields_initFromReader (params : GgufInitParams) :
    Yields Overflows (initFromReader params) Read := by
  refine yields_readHeader.bind fun ctx hctx => ?_
  refine (yields_seekData ctx).bind fun _ _ => ?_
  refine yields_tell.bind fun offset _ => ?_
  refine (yields_dataSize _ _ _ (Nat.zero_le _)).bind fun size hsize => ?_
  refine (yields_readBlob _ _ _).bind fun data hdata => Yields.pure ?_
  obtain ⟨hoffsets, rfl⟩ := hsize
  have hvalid := hctx hoffsets
  exact {
    valid := { hvalid with }
    size := Nat.zero_add _
    data := hdata }

-- ---------------------------------------------------------------------------
-- Where the data stands
-- ---------------------------------------------------------------------------

theorem dataSize_stays (h : dataSize a info size s = .ok (n, s')) : s' = s := by
  induction info generalizing size with
  | nil =>
    cases h
    rfl
  | cons t info ih =>
    simp only [dataSize, demand_run] at h
    exact ih h.2.2

/-- The tests before the blob is read, and the blob. -/
theorem readBlob_run : readBlob ⟨false, true⟩ n size s = .ok (data, s') ↔
    (n + 1) * tensorOverhead + size ≤ sizeMax ∧ size ≤ s.rest.length ∧
      some (s.rest.take size) = data ∧ ⟨s.before ++ s.rest.take size, s.rest.drop size⟩ = s' := by
  have hread : readBlob ⟨false, true⟩ n size =
      (demand (tensorOverhead ≤ sizeMax / (n + 1)) >>= fun _ =>
        demand (size ≤ sizeMax - (n + 1) * tensorOverhead) >>= fun _ =>
          take size >>= fun blob => pure (some blob)) := rfl
  have hfits : (tensorOverhead ≤ sizeMax / (n + 1) ∧ size ≤ sizeMax - (n + 1) * tensorOverhead) ↔
      (n + 1) * tensorOverhead + size ≤ sizeMax := by
    rw [Nat.le_div_iff_mul_le (show 0 < n + 1 by omega), Nat.mul_comm tensorOverhead]
    omega
  rw [hread, demand_run, demand_run, bind_reads, ← and_assoc, hfits]
  refine and_congr_right fun _ => ?_
  constructor
  · rintro ⟨blob, s₁, htake, hpure⟩
    obtain ⟨hle, rfl, rfl⟩ := take_run.mp htake
    cases hpure
    exact ⟨hle, rfl, rfl⟩
  · rintro ⟨hle, rfl, rfl⟩
    exact ⟨_, _, take_run.mpr ⟨hle, rfl, rfl⟩, rfl⟩

theorem readBlob_take (h : readBlob params nTensors size s = .ok (some blob, s')) :
    blob = s.rest.take size := by
  obtain ⟨noAlloc, ctx⟩ := params
  cases ctx with
  | false => cases h
  | true =>
    cases noAlloc with
    | false => exact (Option.some.inj (readBlob_run.mp h).2.2.1).symm
    | true =>
      obtain ⟨_, s₁, -, h⟩ := bind_reads.mp h
      cases h

theorem seekData_aligned {ctx : GgufContext} (ha : IsAlignment ctx.alignment)
    (hinfo : ctx.info ≠ []) (h : seekData ctx s = .ok (u, s')) :
    s'.before.length % ctx.alignment = 0 := by
  have hseek : seekData ctx = ByteReader.tell >>= fun position =>
      seek (ggmlPad position ctx.alignment) := if_neg hinfo
  rw [hseek] at h
  obtain ⟨position, s₁, -, h⟩ := bind_reads.mp h
  unfold seek at h
  split at h
  · rename_i hle
    cases h
    have hlength : (s₁.at (ggmlPad position ctx.alignment)).before.length =
        ggmlPad position ctx.alignment := List.length_take_of_le hle
    rw [hlength]
    exact ggmlPad_mod ha position
  · cases h

-- ---------------------------------------------------------------------------
-- The sizes of tensors
-- ---------------------------------------------------------------------------

theorem mulInt64_ok : mulInt64 a b = .ok n ↔ a * b ≤ int64Max ∧ a * b = n := by
  simp only [mulInt64, bind_ok, ensure_ok, pure_ok]
  constructor
  · rintro ⟨_, h⟩
    exact h
  · intro h
    exact ⟨(), h⟩

theorem nelements_eq {s : GgmlShape} (h : s.nelements = .ok n) :
    n = s.ne0 * s.ne1 * s.ne2 * s.ne3 := by
  simp only [GgmlShape.nelements, bind_ok, mulInt64_ok] at h
  obtain ⟨_, ⟨-, rfl⟩, _, ⟨-, rfl⟩, -, rfl⟩ := h
  rfl

/-- The first row, and then every other row, plane and block behind it. -/
theorem strides_sum (row : Nat) (hb : 0 < b) (hc : 0 < c) (hd : 0 < d) :
    row + (b - 1) * row + (c - 1) * (row * b) + (d - 1) * (row * b * c) = row * b * c * d := by
  obtain ⟨b, rfl⟩ := Nat.exists_eq_add_of_lt hb
  obtain ⟨c, rfl⟩ := Nat.exists_eq_add_of_lt hc
  obtain ⟨d, rfl⟩ := Nat.exists_eq_add_of_lt hd
  simp only [Nat.zero_add, Nat.add_sub_cancel]
  ring

/-- The bytes of the first row, as `ggml_nbytes` forms them. -/
def rowBytes (s : GgmlShape) (type : Nat) : Nat :=
  if blckSize type = 1 then typeSize type + (s.ne0 - 1) * typeSize type
  else s.ne0 * typeSize type % sizeRange / blckSize type

theorem rowBytes_eq {s : GgmlShape} (hblock : blckSize type ≠ 0) (hq : 0 < q)
    (hne0 : s.ne0 = blckSize type * q) (hrow : s.ne0 * typeSize type < sizeRange) :
    rowBytes s type = typeSize type * q := by
  have hpos : 0 < blckSize type := Nat.pos_of_ne_zero hblock
  unfold rowBytes
  rw [Nat.mod_eq_of_lt hrow, hne0]
  split
  · rename_i hone
    obtain ⟨k, rfl⟩ := Nat.exists_eq_succ_of_ne_zero hq.ne'
    rw [hone, Nat.one_mul, Nat.succ_sub_one, Nat.mul_succ]
    ring
  · rw [Nat.mul_assoc, Nat.mul_div_cancel_left _ hpos, Nat.mul_comm]

theorem nbytes_of_pos {s : GgmlShape} (h : 0 ∉ s.dims) :
    (tensorInfo name s type offset).nbytes = (rowBytes s type +
      (s.ne1 - 1) * (tensorInfo name s type offset).nb1 +
      (s.ne2 - 1) * (tensorInfo name s type offset).nb2 +
      (s.ne3 - 1) * (tensorInfo name s type offset).nb3) % sizeRange := by
  unfold GgufTensorInfo.nbytes rowBytes
  rw [if_neg (show 0 ∉ (tensorInfo name s type offset).shape.dims from h)]
  by_cases hone : blckSize type = 1
  · rw [if_pos hone]
    exact if_pos hone
  · rw [if_neg hone]
    exact if_neg hone

/-- Strides of a tensor whose bytes are countable do not wrap around. -/
theorem strides_exact (name : Bytes) (offset : Nat) {s : GgmlShape} (hblock : blckSize type ≠ 0)
    (hne0 : s.ne0 = blckSize type * q) (hb : 0 < s.ne1) (hc : 0 < s.ne2) (hd : 0 < s.ne3)
    (htotal : typeSize type * q * s.ne1 * s.ne2 * s.ne3 < sizeRange) :
    (tensorInfo name s type offset).nb1 = typeSize type * q ∧
    (tensorInfo name s type offset).nb2 = typeSize type * q * s.ne1 ∧
    (tensorInfo name s type offset).nb3 = typeSize type * q * s.ne1 * s.ne2 := by
  have hplanes : typeSize type * q * s.ne1 * s.ne2 < sizeRange :=
    (Nat.le_mul_of_pos_right _ hd).trans_lt htotal
  have hrows : typeSize type * q * s.ne1 < sizeRange :=
    (Nat.le_mul_of_pos_right _ hc).trans_lt hplanes
  have hrow : typeSize type * q < sizeRange := (Nat.le_mul_of_pos_right _ hb).trans_lt hrows
  have hdiv : s.ne0 / blckSize type = q := by
    rw [hne0, Nat.mul_div_cancel_left q (Nat.pos_of_ne_zero hblock)]
  simp only [tensorInfo, hdiv, Nat.mod_eq_of_lt hrow, Nat.mod_eq_of_lt hrows,
    Nat.mod_eq_of_lt hplanes, and_self]

theorem nbytes_tensorInfo {s : GgmlShape} (hrows : blckSize type ≠ 0 ∧ s.ne0 % blckSize type = 0)
    (hn : s.nelements = .ok n) (hsize : n / blckSize type ≤ sizeMax / typeSize type)
    (hrow : s.ne0 * typeSize type < sizeRange) :
    (tensorInfo name s type offset).nbytes = n / blckSize type * typeSize type := by
  obtain ⟨hblock, hdivides⟩ := hrows
  obtain ⟨q, hne0⟩ := Nat.dvd_of_mod_eq_zero hdivides
  have hblocks : n / blckSize type = q * s.ne1 * s.ne2 * s.ne3 := by
    rw [nelements_eq hn, hne0]
    simp only [Nat.mul_assoc]
    exact Nat.mul_div_cancel_left _ (Nat.pos_of_ne_zero hblock)
  by_cases hzero : 0 ∈ s.dims
  · have hnone : n / blckSize type = 0 := by
      have hn0 : n = 0 := by
        rw [nelements_eq hn]
        simp only [GgmlShape.dims, List.mem_cons, List.not_mem_nil, or_false] at hzero
        rcases hzero with h | h | h | h <;> rw [← h] <;> simp
      rw [hn0, Nat.zero_div]
    rw [hnone, Nat.zero_mul]
    exact if_pos hzero
  · have hdims := hzero
    simp only [GgmlShape.dims, List.mem_cons, List.not_mem_nil, or_false, not_or] at hdims
    obtain ⟨ha, hb, hc, hd⟩ := hdims
    have hq : 0 < q := by
      apply Nat.pos_of_ne_zero
      rintro rfl
      exact ha hne0.symm
    have hb : 0 < s.ne1 := by omega
    have hc : 0 < s.ne2 := by omega
    have hd : 0 < s.ne3 := by omega
    have hbytes :
        typeSize type * q * s.ne1 * s.ne2 * s.ne3 = n / blckSize type * typeSize type := by
      rw [hblocks]
      ring
    have hmax : sizeMax < sizeRange := by norm_num [sizeMax, sizeRange]
    have htotal : typeSize type * q * s.ne1 * s.ne2 * s.ne3 < sizeRange := by
      rw [hbytes]
      exact (Nat.mul_le_of_le_div _ _ _ hsize).trans_lt hmax
    obtain ⟨hnb1, hnb2, hnb3⟩ :=
      strides_exact name offset hblock hne0 hb hc hd htotal
    rw [nbytes_of_pos hzero, rowBytes_eq hblock hq hne0 hrow, hnb1, hnb2, hnb3,
      strides_sum _ hb hc hd, Nat.mod_eq_of_lt htotal, hbytes]

theorem nbytes_eq {t : GgufTensorInfo} (ht : t.Valid)
    (hrow : t.shape.ne0 * typeSize t.type < sizeRange) :
    ∃ n, t.shape.nelements = .ok n ∧ t.nbytes = n / blckSize t.type * typeSize t.type := by
  obtain ⟨n, hn, -, hsize⟩ := ht.elements
  refine ⟨n, hn, ?_⟩
  rw [ht.strides]
  exact nbytes_tensorInfo ht.rows hn hsize hrow

theorem le_ggmlPad (ha : IsAlignment a) (hx : x + a ≤ sizeRange) : x ≤ ggmlPad x a := by
  have h := length_pad ha hx
  omega

/-- Tensors stand one behind another, each of them inside the data. -/
theorem inSequence_apart (ha : IsAlignment a) (h : InSequence a info size) :
    (∀ t ∈ info, size ≤ t.offset) ∧
    (∀ t ∈ info, t.nbytes + a ≤ sizeRange → t.offset + t.nbytes ≤ size + paddedSize a info) ∧
    info.Pairwise fun t u => t.nbytes + a ≤ sizeRange → t.offset + t.nbytes ≤ u.offset := by
  induction info generalizing size with
  | nil => exact ⟨fun _ h => absurd h List.not_mem_nil, fun _ h => absurd h List.not_mem_nil, .nil⟩
  | cons t info ih =>
    obtain ⟨hoffset, -, hrest⟩ := h
    obtain ⟨hbehind, hinside, happart⟩ := ih hrest
    have hpadded : paddedSize a (t :: info) = ggmlPad t.nbytes a + paddedSize a info := rfl
    refine ⟨?_, ?_, List.Pairwise.cons ?_ happart⟩
    · intro u hu
      rcases List.mem_cons.mp hu with rfl | hu
      · exact hoffset.ge
      · have := hbehind u hu
        omega
    · intro u hu hfits
      rcases List.mem_cons.mp hu with rfl | hu
      · have := le_ggmlPad ha hfits
        omega
      · have := hinside u hu hfits
        omega
    · intro u hu hfits
      have := hbehind u hu
      have := le_ggmlPad ha hfits
      omega

theorem inSequence_aligned (ha : IsAlignment a) (h : InSequence a info size)
    (hsize : size % a = 0) : ∀ t ∈ info, t.offset % a = 0 := by
  induction info generalizing size with
  | nil => exact fun _ h => absurd h List.not_mem_nil
  | cons t info ih =>
    obtain ⟨hoffset, -, hrest⟩ := h
    intro u hu
    rcases List.mem_cons.mp hu with rfl | hu
    · rw [hoffset, hsize]
    · apply ih hrest _ u hu
      rw [Nat.add_mod, hsize, ggmlPad_mod ha]
      exact Nat.zero_mod a

-- ---------------------------------------------------------------------------
-- Files
-- ---------------------------------------------------------------------------

/-- A context that stands for these bytes. Where a size comes close to `2 ^ 64` the padded size of
a tensor is zero, and where the size of a row does, its strides are too short. -/
structure Loaded (file : Bytes) (ctx : GgufContext) : Prop where
  valid : ctx.Valid
  data : ∀ blob, ctx.data = some blob → blob = (file.drop ctx.offset).take ctx.size ∧
    blob.length = ctx.size
  dataAligned : ctx.info ≠ [] → ctx.offset % ctx.alignment = 0
  tensorAligned : ∀ t ∈ ctx.info, t.offset % ctx.alignment = 0
  tensorSize : ∀ t ∈ ctx.info, t.shape.ne0 * typeSize t.type < sizeRange →
    ∃ n, t.shape.nelements = .ok n ∧ t.nbytes = n / blckSize t.type * typeSize t.type
  tensorInside : ∀ t ∈ ctx.info, t.nbytes + ctx.alignment ≤ sizeRange →
    t.offset + t.nbytes ≤ ctx.size
  tensorsApart : ctx.info.Pairwise fun t u => t.nbytes + ctx.alignment ≤ sizeRange →
    t.offset + t.nbytes ≤ u.offset

/-- The steps of a parse that succeeds: the header, the place of the data, its size, the data. -/
theorem initFromReader_run : initFromReader params s = .ok (ctx, s') ↔
    ∃ header s₁ s₂ size data, readHeader s = .ok (header, s₁) ∧
      seekData header s₁ = .ok ((), s₂) ∧
      dataSize header.alignment header.info 0 s₂ = .ok (size, s₂) ∧
      readBlob params header.info.length size s₂ = .ok (data, s') ∧
      { header with offset := s₂.before.length, size, data } = ctx := by
  simp only [initFromReader, bind_reads]
  constructor
  · rintro ⟨header, s₁, hheader, _, s₂, hseek, offset, s₃, htell, size, s₄, hsize, data, s₅,
      hblob, hlast⟩
    cases htell
    obtain rfl := dataSize_stays hsize
    cases hlast
    exact ⟨header, s₁, s₄, size, data, hheader, hseek, hsize, hblob, rfl⟩
  · rintro ⟨header, s₁, s₂, size, data, hheader, hseek, hsize, hblob, rfl⟩
    exact ⟨header, s₁, hheader, (), s₂, hseek, _, s₂, rfl, size, s₂, hsize, data, s', hblob, rfl⟩

theorem initFromFile_run : initFromFile params file = .ok ctx ↔
    ∃ s, initFromReader params ⟨[], file⟩ = .ok (ctx, s) := by
  rw [initFromFile, map_ok, Prod.exists]
  constructor
  · rintro ⟨ctx', s, hrun, rfl⟩
    exact ⟨s, hrun⟩
  · rintro ⟨s, hrun⟩
    exact ⟨ctx, s, hrun, rfl⟩

/-- The data begins in the bytes of the file. -/
theorem whole_at_data (hheader : readHeader ⟨[], file⟩ = .ok (header, s₁))
    (hseek : seekData header s₁ = .ok (u, s₂)) : s₂.before ++ s₂.rest = file :=
  ((yields_seekData header s₁).1 _ _ hseek).1.trans
    ((yields_readHeader ⟨[], file⟩).1 _ _ hheader).1

theorem loaded_of_init (h : initFromFile params file = .ok ctx) : Loaded file ctx := by
  obtain ⟨s, hrun⟩ := initFromFile_run.mp h
  obtain ⟨-, hread⟩ := (yields_initFromReader params ⟨[], file⟩).1 ctx s hrun
  have ha := isAlignment_of_valid hread.valid
  have hsequence := hread.valid.offsets
  obtain ⟨-, hinside, hapart⟩ := inSequence_apart ha hsequence
  rw [Nat.zero_add, ← hread.size] at hinside
  obtain ⟨header, s₁, s₂, size, data, hheader, hseek, hsize, hblob, rfl⟩ :=
    initFromReader_run.mp hrun
  have hrest : file.drop s₂.before.length = s₂.rest := by
    rw [← whole_at_data hheader hseek]
    exact List.drop_left
  have haligned : header.info ≠ [] → s₂.before.length % header.alignment = 0 := fun hinfo =>
    seekData_aligned ha hinfo hseek
  exact {
    valid := hread.valid
    data := fun blob hdata => by
      obtain rfl : data = some blob := hdata
      exact ⟨(readBlob_take hblob).trans (by rw [hrest]), hread.data blob rfl⟩
    dataAligned := haligned
    tensorAligned := inSequence_aligned ha hsequence (Nat.zero_mod _)
    tensorSize := fun t ht hrow => nbytes_eq (hread.valid.info t ht) hrow
    tensorInside := hinside
    tensorsApart := hapart }

/-- Any bytes are refused, or read as what they hold; the one fault is an overflow. -/
theorem initFromFile_loaded (params : GgufInitParams) (file : Bytes) :
    (∀ ctx, initFromFile params file = .ok ctx → Loaded file ctx) ∧
      ∀ f, initFromFile params file = .error (.fault f) → f = .overflow := by
  refine ⟨fun ctx h => loaded_of_init h, fun f h => ?_⟩
  apply (yields_initFromReader params ⟨[], file⟩).2 f
  unfold initFromFile at h
  cases hrun : initFromReader params ⟨[], file⟩ with
  | error stop =>
    rw [hrun] at h
    cases h
    rfl
  | ok p =>
    rw [hrun] at h
    cases h

end Gguf

end LibEmbedding
