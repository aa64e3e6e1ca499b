import LibEmbedding.GgufAccepted
import LibEmbedding.GgufDescribe
import Mathlib.Data.List.Find

/-!
# Headers of files

The header the probe and the weights see of a file. What a session loads depends on the entries
and the tensors a file holds, not on their order, and the inspector sees in its own parse what the
runtime sees in its parse.
-/

namespace LibEmbedding

open Foundation Gguf

/-- How the bytes of floating-point values and of quantised tensors are read. -/
structure GgufDecoding where
  float32 : Bytes → CFloat
  float64 : Bytes → CFloat
  values : Nat → GgmlShape → Bytes → Nat → Nat → Nat → Nat → ℚ

theorem toInt32_fits (n : Nat) : FitsInt (toInt32 n) := by
  refine ⟨?_, toInt32_le n⟩
  have hle := Int.le_bmod (x := (n : Int)) (m := 2 ^ 32) (by norm_num)
  unfold toInt32 intMin
  omega

/-- The value the typed reads of a probe see. -/
def GgufKv.value (dec : GgufDecoding) (kv : GgufKv) : GgufValue :=
  if kv.isArray then
    if kv.type = .string then
      if h : kv.dataString.length ≤ maxArrayElements then .strings kv.dataString h else .other
    else .other
  else
    let n := ofLittleEndian kv.data
    match kv.type with
    | .uint8 => .uint8 (UInt8.ofNat n)
    | .uint32 => .uint32 (UInt32.ofNat n)
    | .int32 => .int32 ⟨toInt32 n, toInt32_fits n⟩
    | .float32 => .float32 (dec.float32 kv.data)
    | .float64 => .float64 (dec.float64 kv.data)
    | .bool => .bool (decide (n ≠ 0))
    | .string => .string (kv.dataString.headD [])
    | _ => .other

/-- A tensor without its place in the file. -/
structure TensorContent where
  name : Bytes
  shape : GgmlShape
  type : Nat
  data : Option Bytes
  deriving DecidableEq

def TensorContent.tensor (dec : GgufDecoding) (c : TensorContent) : GgufTensor where
  type := if c.type = 0 then .f32 else .other
  ne0 := c.shape.ne0
  ne1 := c.shape.ne1
  ne2 := c.shape.ne2
  ne3 := c.shape.ne3
  hasData := c.data.isSome
  value := dec.values c.type c.shape (c.data.getD [])

def GgufContext.content (ctx : GgufContext) (t : GgufTensorInfo) : TensorContent :=
  ⟨t.name, t.shape, t.type, ctx.tensorData t⟩

/-- `gguf_find_tensor` -/
def findTensor (info : List GgufTensorInfo) (name : Bytes) : Option GgufTensorInfo :=
  info.find? fun t => name = t.name

def GgufContext.header (dec : GgufDecoding) (ctx : GgufContext) : GgufHeader where
  key key := (findKey ctx.kv (cstr key)).map (GgufKv.value dec)
  tensor name := (findTensor ctx.info (cstr name)).map fun t => (ctx.content t).tensor dec
  nTensors := ctx.info.length

namespace Gguf

/-- `Probe::open` of a file with these contents. -/
def openProbe (dec : GgufDecoding) (file : Bytes) : Option GgufHeader :=
  (initFromFile ⟨true, false⟩ file).toOption.map (GgufContext.header dec)

/-- The file as `Weights::open` has it, with the data of its tensors. -/
def openBlob (dec : GgufDecoding) (file : Bytes) : Option GgufHeader :=
  (initFromFile ⟨false, true⟩ file).toOption.map (GgufContext.header dec)

-- ---------------------------------------------------------------------------
-- The order of a file
-- ---------------------------------------------------------------------------

theorem tensor_eq (dec : GgufDecoding) (ctx : GgufContext) (name : Bytes) :
    (ctx.header dec).tensor name =
      ((ctx.info.map ctx.content).find? fun c => cstr name = c.name).map
        (TensorContent.tensor dec) := by
  rw [List.find?_map, Option.map_map]
  rfl

theorem header_perm (dec : GgufDecoding) {ctx ctx' : GgufContext} (hctx : ctx.Valid)
    (hkv : ctx.kv.Perm ctx'.kv) (hnul : ∀ kv ∈ ctx.kv, 0 ∉ kv.key)
    (hinfo : (ctx.info.map ctx.content).Perm (ctx'.info.map ctx'.content)) :
    ctx.header dec = ctx'.header dec := by
  have hkey : ∀ key, (ctx.header dec).key key = (ctx'.header dec).key key := by
    intro key
    refine congrArg (Option.map (GgufKv.value dec)) (List.find?_eq_find?_of_perm hkv ?_)
    rintro a ⟨ha, hpa⟩ b ⟨hb, hpb⟩
    have hsame : cstr a.key = cstr b.key :=
      (of_decide_eq_true hpa).symm.trans (of_decide_eq_true hpb)
    rw [cstr_eq (hnul a ha), cstr_eq (hnul b hb)] at hsame
    exact List.inj_on_of_nodup_map hctx.keys ha hb hsame
  have htensor : ∀ name, (ctx.header dec).tensor name = (ctx'.header dec).tensor name := by
    intro name
    rw [tensor_eq, tensor_eq]
    refine congrArg (Option.map (TensorContent.tensor dec))
      (List.find?_eq_find?_of_perm hinfo ?_)
    rintro a ⟨ha, hpa⟩ b ⟨hb, hpb⟩
    obtain ⟨t, ht, rfl⟩ := List.mem_map.mp ha
    obtain ⟨u, hu, rfl⟩ := List.mem_map.mp hb
    have hsame : t.name = u.name := (of_decide_eq_true hpa).symm.trans (of_decide_eq_true hpb)
    rw [List.inj_on_of_nodup_map hctx.names ht hu hsame]
  have hcount : ctx.info.length = ctx'.info.length := by
    have h := hinfo.length_eq
    rwa [List.length_map, List.length_map] at h
  show GgufHeader.mk _ _ _ = GgufHeader.mk _ _ _
  rw [GgufHeader.mk.injEq]
  exact ⟨funext hkey, funext htensor, hcount⟩

theorem openBlob_eq (dec : GgufDecoding) (h : initFromFile ⟨false, true⟩ file = .ok ctx) :
    openBlob dec file = some (ctx.header dec) := by
  rw [openBlob, h]
  rfl

-- ---------------------------------------------------------------------------
-- Two parses of one file
-- ---------------------------------------------------------------------------

/-- Without the data the reader stops before the blob, and has read the same. -/
theorem init_withoutData (noAlloc : Bool) (h : initFromFile ⟨false, true⟩ file = .ok ctx) :
    initFromFile ⟨noAlloc, false⟩ file = .ok { ctx with data := none } := by
  obtain ⟨s, hrun⟩ := initFromFile_run.mp h
  obtain ⟨header, s₁, s₂, size, data, hheader, hseek, hsize, -, rfl⟩ := initFromReader_run.mp hrun
  apply initFromFile_run.mpr
  exact ⟨s₂, initFromReader_run.mpr
    ⟨header, s₁, s₂, size, none, hheader, hseek, hsize, rfl, rfl⟩⟩

/-- The file goes on for the data of its tensors, and memory can be sized for them. -/
structure Complete (file : Bytes) (ctx : GgufContext) : Prop where
  memory : (ctx.info.length + 1) * tensorOverhead + ctx.size ≤ sizeMax
  bytes : ctx.offset + ctx.size ≤ file.length

/-- With the data the reader refuses the files that end too early, and no others. -/
theorem init_withData (noAlloc : Bool) : (∃ ctx, initFromFile ⟨false, true⟩ file = .ok ctx) ↔
    ∃ ctx, initFromFile ⟨noAlloc, false⟩ file = .ok ctx ∧ Complete file ctx := by
  constructor
  · rintro ⟨ctx, h⟩
    refine ⟨_, init_withoutData noAlloc h, ?_⟩
    obtain ⟨s, hrun⟩ := initFromFile_run.mp h
    obtain ⟨header, s₁, s₂, size, data, hheader, hseek, -, hblob, rfl⟩ :=
      initFromReader_run.mp hrun
    obtain ⟨hmemory, hbytes, -, -⟩ := readBlob_run.mp hblob
    refine ⟨hmemory, ?_⟩
    show s₂.before.length + size ≤ file.length
    rw [← whole_at_data hheader hseek, List.length_append]
    omega
  · rintro ⟨ctx, h, hcomplete⟩
    obtain ⟨s, hrun⟩ := initFromFile_run.mp h
    obtain ⟨header, s₁, s₂, size, data, hheader, hseek, hsize, -, rfl⟩ :=
      initFromReader_run.mp hrun
    have hbytes : size ≤ s₂.rest.length := by
      have hle : s₂.before.length + size ≤ file.length := hcomplete.bytes
      rw [← whole_at_data hheader hseek, List.length_append] at hle
      omega
    have hblob := readBlob_run.mpr ⟨hcomplete.memory, hbytes, rfl, rfl⟩
    exact ⟨_, initFromFile_run.mpr ⟨_, initFromReader_run.mpr
      ⟨header, s₁, s₂, size, _, hheader, hseek, hsize, hblob, rfl⟩⟩⟩

/-- The parts of a header that a description is made from. -/
structure SameDirectory (h h' : GgufHeader) : Prop where
  key : ∀ key, h.key key = h'.key key
  has : ∀ name, Probe.hasTensor (some h) name = Probe.hasTensor (some h') name
  numel : ∀ name, Probe.tensorNumel (some h) name = Probe.tensorNumel (some h') name
  nTensors : h.nTensors = h'.nTensors

section

variable {header header' : GgufHeader} (h : SameDirectory header header')

include h

theorem getStr_congr (key : Bytes) :
    Probe.getStr (some header) key = Probe.getStr (some header') key := by
  unfold Probe.getStr Probe.find
  rw [Option.bind_some, Option.bind_some, h.key]

theorem getI32_congr (key : Bytes) :
    Probe.getI32 (some header) key = Probe.getI32 (some header') key := by
  unfold Probe.getI32 Probe.find
  rw [Option.bind_some, Option.bind_some, h.key]

theorem readArchFields_congr (arch : Bytes) (d : GgufDesc) :
    readArchFields (some header) arch d = readArchFields (some header') arch d := by
  unfold readArchFields Probe.getArchI32
  simp only [getI32_congr h]

theorem describe_congr (n : Nat) : describe (some header) n = describe (some header') n := by
  unfold describe describeNames
  simp only [getStr_congr h, readArchFields_congr h]

theorem addCapability_congr : addCapability (some header) = addCapability (some header') := by
  funext caps rule
  unfold addCapability
  rw [h.has]
  cases rule.companion with
  | none => rfl
  | some companion =>
    simp only
    rw [h.has]

theorem classifyHeads_congr (d : GgufDesc) :
    classifyHeads (some header) d = classifyHeads (some header') d := by
  have hcaps : headCapabilities (some header) d.capabilities =
      headCapabilities (some header') d.capabilities := by
    unfold headCapabilities
    rw [addCapability_congr h, h.has]
  have htokens : ∀ d, readSpecialTokens (some header) d = readSpecialTokens (some header') d := by
    intro d
    unfold readSpecialTokens
    simp only [getI32_congr h]
  have hformula : ∀ d, resolveFormula (some header) d = resolveFormula (some header') d := by
    intro d
    unfold resolveFormula
    rw [h.numel]
  unfold classifyHeads
  rw [hcaps, htokens]
  simp only [hformula]

theorem classify_congr : classify (some header) = classify (some header') := by
  unfold classify
  simp only [describe_congr h, classifyHeads_congr h, h.has, h.nTensors]

end

theorem sameDirectory (dec : GgufDecoding) (ctx : GgufContext) :
    SameDirectory ({ ctx with data := none }.header dec) (ctx.header dec) where
  key _ := rfl
  has name := by
    unfold Probe.hasTensor Probe.tensor GgufContext.header
    simp only [Option.bind_some, Option.isSome_map]
  numel name := by
    unfold Probe.tensorNumel Probe.tensor GgufContext.header
    simp only [Option.bind_some]
    cases findTensor ctx.info (cstr name) <;> rfl
  nTensors := rfl

theorem openProbe_eq (dec : GgufDecoding) (h : initFromFile ⟨false, true⟩ file = .ok ctx) :
    openProbe dec file = some ({ ctx with data := none }.header dec) := by
  rw [openProbe, init_withoutData true h]
  rfl

/-- The inspector describes in its own parse what the weights are read from. -/
theorem classify_parses (dec : GgufDecoding) (h : initFromFile ⟨false, true⟩ file = .ok ctx) :
    classify (openProbe dec file) = classify (openBlob dec file) := by
  rw [openProbe_eq dec h, openBlob_eq dec h]
  exact classify_congr (sameDirectory dec ctx)

theorem openBlob_read {dec : GgufDecoding} (h : openBlob dec file = some header) :
    ∃ ctx, initFromFile ⟨false, true⟩ file = .ok ctx := by
  unfold openBlob at h
  cases hread : initFromFile ⟨false, true⟩ file with
  | error stop =>
    rw [hread] at h
    cases h
  | ok ctx => exact ⟨ctx, rfl⟩

theorem openBlob_isSome (dec : GgufDecoding) :
    (openBlob dec file).isSome ↔ ∃ ctx, initFromFile ⟨false, true⟩ file = .ok ctx := by
  constructor
  · intro h
    obtain ⟨header, hheader⟩ := Option.isSome_iff_exists.mp h
    exact openBlob_read hheader
  · rintro ⟨ctx, h⟩
    rw [openBlob_eq dec h]
    rfl

/-- The inspector and the runtime parse a file each on its own. The runtime opens the files that
are complete among those the inspector opens, both see the same entries and make the same
description, and a file that loads is one the inspector calls sparse. -/
theorem parses_agree (dec : GgufDecoding) (file : Bytes) :
    ((openBlob dec file).isSome ↔
      ∃ ctx, initFromFile ⟨true, false⟩ file = .ok ctx ∧ Complete file ctx) ∧
    (∀ header, openBlob dec file = some header →
      (∀ key, Probe.find (openProbe dec file) key = header.key key) ∧
      classify (openProbe dec file) = classify (some header)) ∧
    ∀ (s : SparseSession) path env maxLength,
      (s.loadFromFile path (openBlob dec file) env maxLength).1 = .ok () →
        capabilitySummary (some (classify (openProbe dec file))) = "sparse" := by
  have hdescribed : ∀ header, openBlob dec file = some header →
      (∀ key, Probe.find (openProbe dec file) key = header.key key) ∧
      classify (openProbe dec file) = classify (some header) := by
    intro header h
    obtain ⟨ctx, hread⟩ := openBlob_read h
    rw [openBlob_eq dec hread] at h
    obtain rfl := Option.some.inj h
    rw [openProbe_eq dec hread]
    exact ⟨fun key => rfl, classify_congr (sameDirectory dec ctx)⟩
  refine ⟨(openBlob_isSome dec).trans (init_withData true), hdescribed, ?_⟩
  intro s path env maxLength hload
  obtain ⟨o, tokens, hopened⟩ := (s.loadFromFile_ok path _ env maxLength).mp hload
  rw [(hdescribed o.header hopened.file).2]
  exact hopened.accepted.summary

/-- Files that hold the same entries and tensors, in any order, are the same to a session and to
the inspector. -/
theorem load_anyOrder (dec : GgufDecoding) (h : initFromFile ⟨false, true⟩ file = .ok ctx)
    (h' : initFromFile ⟨false, true⟩ file' = .ok ctx') (hkv : ctx.kv.Perm ctx'.kv)
    (hnul : ∀ kv ∈ ctx.kv, 0 ∉ kv.key)
    (hinfo : (ctx.info.map ctx.content).Perm (ctx'.info.map ctx'.content)) (s : SparseSession)
    (path : Option Bytes) (env : LoadEnv) (maxLength : Int) :
    s.loadFromFile path (openBlob dec file) env maxLength =
        s.loadFromFile path (openBlob dec file') env maxLength ∧
      classify (openProbe dec file) = classify (openProbe dec file') := by
  have hheader : ctx.header dec = ctx'.header dec :=
    header_perm dec (loaded_of_init h).valid hkv hnul hinfo
  have hblob : openBlob dec file = openBlob dec file' := by
    rw [openBlob_eq dec h, openBlob_eq dec h', hheader]
  refine ⟨by rw [hblob], ?_⟩
  rw [classify_parses dec h, classify_parses dec h', hblob]

def plainDecoding : GgufDecoding := ⟨fun _ => .nan, fun _ => .nan, fun _ _ _ _ _ _ _ => 0⟩

/-- The entries and tensors of `sampleContext` the other way round. -/
def turnedContext : GgufContext where
  kv := sampleContext.kv.reverse
  info := [tensorInfo (ascii "u") ⟨32, 2, 1, 1⟩ 8 0, tensorInfo (ascii "t") ⟨3, 1, 1, 1⟩ 0 96]

def turnedFile : Bytes := ((writeOut turnedContext sampleMemory.reverse).toOption).getD []

def sampleFile : Bytes := ((writeOut sampleContext sampleMemory).toOption).getD []

theorem ok_of_toOption {x : Except ReadStop α} (h : x.toOption = some a) : x = .ok a := by
  cases x with
  | error stop => cases h
  | ok b => exact congrArg Except.ok (Option.some.inj h)

theorem load_anyOrder_sample :
    SparseSession.new.loadFromFile (some (ascii "a.gguf")) (openBlob plainDecoding sampleFile)
        .ample 0 =
      SparseSession.new.loadFromFile (some (ascii "a.gguf")) (openBlob plainDecoding turnedFile)
        .ample 0 ∧
      classify (openProbe plainDecoding sampleFile) =
        classify (openProbe plainDecoding turnedFile) := by
  have hread : initFromFile ⟨false, true⟩ sampleFile = .ok { sampleContext with
      offset := 160, size := 128, data := some (List.replicate 128 0) } :=
    ok_of_toOption (by decide +kernel)
  have hturned : initFromFile ⟨false, true⟩ turnedFile = .ok { turnedContext with
      offset := 160, size := 128, data := some (List.replicate 128 0) } :=
    ok_of_toOption (by decide +kernel)
  exact load_anyOrder plainDecoding hread hturned (List.reverse_perm _).symm (by decide +kernel)
    (by decide +kernel) _ _ _ _

end Gguf

end LibEmbedding
