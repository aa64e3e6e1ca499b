import LibEmbedding.AutotuneCache

/-!
# Text models

The registry of text models, where every quantized sibling is an entry of its own, and the
creation of an embedding context from an entry.
-/

namespace LibEmbedding

open Foundation

/-- `lembed_quantization_t` -/
inductive Quantization where
  | none
  | static
  | dynamic
  | auto
  | fp16
  deriving DecidableEq, Repr

def Quantization.code : Quantization → Int
  | .none => 0
  | .static => 1
  | .dynamic => 2
  | .auto => 3
  | .fp16 => 4

theorem Quantization.code_injective (h : Quantization.code q = Quantization.code q') : q = q' := by
  cases q <;> cases q' <;> first | rfl | exact absurd h (by decide)

theorem Quantization.code_range (q : Quantization) : 0 ≤ q.code ∧ q.code ≤ 4 := by
  cases q <;> decide

/-- `lembed__quantization_name` -/
def quantizationName (quantization : Int) : Bytes :=
  if quantization = 1 then ascii "static"
  else if quantization = 2 then ascii "dynamic"
  else if quantization = 3 then ascii "auto"
  else if quantization = 4 then ascii "fp16"
  else ascii "none"

/-- `lembed_model_info_t`. The code is the name of a repository. -/
structure TextModelInfo where
  modelName : Bytes
  modelCode : Bytes
  plainCode : Plain modelCode
  modelFile : Bytes
  dim : Int
  maxTokens : Int
  pooling : Int
  quantization : Quantization
  deriving DecidableEq

/-- `lembed_find_text_model_variant`: the first entry of the family that has the mode. -/
def findTextModelVariant (registry : List TextModelInfo) (modelName : Bytes) (quantization : Int) :
    Option Nat :=
  registry.findIdx? fun info => info.modelName = modelName && info.quantization.code = quantization

theorem findTextModelVariant_some (h : findTextModelVariant registry modelName quantization = some v) :
    ∃ info, registry[v]? = some info ∧ info.modelName = modelName ∧
      info.quantization.code = quantization := by
  obtain ⟨hv, hinfo, -⟩ := List.findIdx?_eq_some_iff_getElem.mp h
  rw [Bool.and_eq_true, decide_eq_true_eq, decide_eq_true_eq] at hinfo
  exact ⟨registry[v], List.getElem?_eq_getElem hv, hinfo⟩

theorem findTextModelVariant_isSome {registry : List TextModelInfo} {m : Nat}
    (h : registry[m]? = some info) :
    (findTextModelVariant registry info.modelName info.quantization.code).isSome = true := by
  rw [findTextModelVariant, List.findIdx?_isSome, List.any_eq_true]
  exact ⟨info, List.mem_of_getElem? h, by simp⟩

-- ---------------------------------------------------------------------------
-- Creation
-- ---------------------------------------------------------------------------

/-- `lembed_text_options_t`, the part that ONNX models read. -/
structure TextOptions where
  model : Nat
  provider : Int := 0
  deviceId : Int := 0
  cacheDir : Bytes := []
  maxLength : Int := 0
  numThreads : Int := 0
  batchSize : Int := defaultBatchSize
  offline : Bool := false
  cacheSize : Int := 0
  backend : Int := 2
  batchStrategy : Int := 2

/-- `lembed_text_embedding`, as the creator fills it. The session and the tokenizer are the
files they were loaded from. -/
structure TextContext where
  pooling : Int
  quantization : Int
  dim : Int
  maxLength : Int
  modelNameStr : Bytes
  batchStrategy : Int
  numThreads : Int
  batchSize : Int
  provider : Int
  deviceId : Int
  outputKey : Bytes
  session : Bytes
  tokenizer : Bytes
  cacheSize : Int

/-- The registry, and what the downloader and the sessions make of its entries. Timings are
those of a context of an entry with some options on some corpus. -/
structure TextHost where
  registry : List TextModelInfo
  ensureTextModel : Nat → Bytes → Bool → Except Status Bytes
  loadSession : Bytes → Int → Int → Int → Bool
  loadTokenizer : Bytes → Int → Bool
  probe : Nat → Int → Int → List Bytes → ℚ → ℚ
  measure : Nat → Int → Int → List Bytes → ℚ × ℚ
  fileMb : Nat → ℚ
  /-- Whether two entries give their name as one literal. -/
  sameName : Nat → Nat → Bool
  machine : Machine
  autotuneDir : Bytes

/-- `LEMBED_TEXT_EMBEDDING_GEMMA_300M` -/
def textEmbeddingGemma300m : Nat := 33

namespace TextHost

variable (host : TextHost)

/-- The context that a creator fills. -/
def contextOf (options : TextOptions) (info : TextModelInfo) (modelDir : Bytes) : TextContext where
  pooling := info.pooling
  quantization := info.quantization.code
  dim := info.dim
  maxLength := if 0 < options.maxLength then options.maxLength else info.maxTokens
  modelNameStr := info.modelName
  batchStrategy := options.batchStrategy
  numThreads := options.numThreads
  batchSize := if 0 < options.batchSize then options.batchSize else defaultBatchSize
  provider := options.provider
  deviceId := options.deviceId
  outputKey := if options.model = textEmbeddingGemma300m then ascii "sentence_embedding" else []
  session := modelDir ++ ascii "/" ++ info.modelFile
  tokenizer := modelDir ++ ascii "/tokenizer.json"
  cacheSize := if 0 < options.cacheSize then options.cacheSize else 0

/-- `lembed_text_embedding_create` -/
def create (options : TextOptions) : Except Status TextContext :=
  if options.backend < 0 ∨ 2 < options.backend then .error .invalidArgument
  else match host.registry[options.model]? with
  | none => .error .invalidArgument
  | some info =>
    match host.ensureTextModel options.model options.cacheDir options.offline with
    | .error status => .error status
    | .ok modelDir =>
      let ctx := contextOf options info modelDir
      if host.loadSession ctx.session options.numThreads options.provider ctx.quantization = false ∨
          host.loadTokenizer ctx.tokenizer ctx.maxLength = false then .error .onnxRuntime
      else .ok ctx

/-- What a created context was made of. -/
structure Loaded (options : TextOptions) (info : TextModelInfo) (ctx : TextContext) : Prop where
  entry : host.registry[options.model]? = some info
  weights : ∃ dir, host.ensureTextModel options.model options.cacheDir options.offline = .ok dir ∧
    ctx.session = dir ++ ascii "/" ++ info.modelFile
  modelNameStr : ctx.modelNameStr = info.modelName
  quantization : ctx.quantization = info.quantization.code

variable {host}

theorem create_ok (h : host.create options = .ok ctx) : ∃ info, host.Loaded options info ctx := by
  unfold create at h
  split at h
  · cases h
  · split at h
    · cases h
    · rename_i info hinfo
      split at h
      · cases h
      · rename_i dir hdir
        dsimp only at h
        split at h
        · cases h
        · cases h
          exact ⟨info, hinfo, ⟨dir, hdir, rfl⟩, rfl, rfl⟩

/-- Two entries of one repository. Only the quantized weights are on disk. -/
def siblings : TextHost where
  registry := [
    { modelName := ascii "sentence-transformers/all-MiniLM-L12-v2"
      modelCode := ascii "Xenova/all-MiniLM-L12-v2"
      plainCode := by decide
      modelFile := ascii "onnx/model.onnx"
      dim := 384, maxTokens := 512, pooling := 1, quantization := .none },
    { modelName := ascii "sentence-transformers/all-MiniLM-L12-v2"
      modelCode := ascii "Xenova/all-MiniLM-L12-v2"
      plainCode := by decide
      modelFile := ascii "onnx/model_quantized.onnx"
      dim := 384, maxTokens := 512, pooling := 1, quantization := .dynamic }]
  ensureTextModel v _ _ := if v = 1 then .ok (ascii "models") else .error .download
  loadSession _ _ _ _ := true
  loadTokenizer _ _ := true
  probe _ _ _ _ _ := 100
  measure _ _ _ _ := (100, 10)
  fileMb _ := 33
  sameName _ _ := true
  machine := {
    logicalCores := 8, physicalCores := 4, cpuBrand := ascii "cpu", brandSafe := cpu_brandSafe
    ortMajor := 1, ortMinor := 20, versionMajor := 1, versionMinor := 11 }
  autotuneDir := ascii "autotune"

end TextHost

end LibEmbedding
