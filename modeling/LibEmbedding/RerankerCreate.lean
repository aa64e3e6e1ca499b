import LibEmbedding.Foundation.Heap
import LibEmbedding.TextModels

/-!
# Creating a reranker

`lembed_reranker_create` and its versioned sibling: ONNX first, a GGUF file where the ONNX weights
are not found. Contexts live on a heap, and the caller knows the one in `*out`.
-/

namespace LibEmbedding

open Foundation

/-- `lembed_model_info_t` of a reranker. -/
structure RerankerModelInfo where
  modelName : Bytes
  modelCode : Bytes
  modelFile : Bytes
  maxTokens : Int
  quantization : Int
  deriving DecidableEq

/-- `lembed_gguf_model_info_t`, the part that a search reads. -/
structure GgufModelInfo where
  name : Bytes
  ggufUrl : Bytes
  deriving DecidableEq

/-- `lembed_reranker_options_t`, the part that the creators read. -/
structure RerankerOptions where
  model : Int
  provider : Int := 0
  deviceId : Int := 0
  cacheDir : Bytes := []
  maxLength : Int := 0
  numThreads : Int := 0
  showDownloadProgress : Bool := true
  batchSize : Int := defaultBatchSize
  offline : Bool := false
  backend : Int := 2
  cacheSize : Int := 0

/-- `lembed_backend_t` -/
def backendOnnx : Int := 0

def backendLlamacpp : Int := 1

def backendAuto : Int := 2

/-- `LEMBED_PROVIDER_LLAMACPP` -/
def providerLlamacpp : Int := 5

/-- `lembed_reranker`, as the creators fill it. The sessions and the tokenizer are the files they
were loaded from. -/
structure RerankerContext where
  backendType : BackendType
  quantization : Int
  maxLength : Int
  modelNameStr : Bytes
  numThreads : Int
  batchSize : Int
  provider : Int
  deviceId : Int
  cacheCapacity : Option Nat
  session : Bytes
  tokenizer : Bytes
  deriving DecidableEq

/-- A status that is no success. -/
abbrev Failure := { s : Status // s ≠ .ok }

/-- What the downloader and the ONNX loaders come to in one attempt: a status or a directory, and
whether the files load or the load throws. -/
structure OnnxLoaders where
  ensureRerankerModel : Int → Bytes → Bool → Bool → Except Failure Bytes
  loadSession : Bytes → Int → Int → Int → Bool
  loadTokenizer : Bytes → Int → Bool

/-- The registries, and the loaders. An attempt at ONNX may end otherwise than the one before. -/
structure RerankerLoaders where
  rerankers : List RerankerModelInfo
  ggufModels : List GgufModelInfo
  onnx : Nat → OnnxLoaders
  resolveGgufPath : Bytes → Bytes → Bool → Except Failure Bytes
  loadLlama : Bytes → Int → Bool

/-- The contexts that exist, what `*out` holds, how often ONNX was attempted, and the GGUF files
that a context was asked for. -/
structure RerankerWorld where
  heap : Heap RerankerContext
  out : Option Nat
  attempts : Nat := 0
  ggufTried : List Bytes := []

namespace RerankerLoaders

variable (loaders : RerankerLoaders)

/-- `lembed_get_reranker_model_info` -/
def getRerankerModelInfo (model : Int) : Option RerankerModelInfo :=
  if model < 0 then none else loaders.rerankers[model.toNat]?

def lowered (s : Bytes) : Bytes := s.map fun c => if 65 ≤ c ∧ c ≤ 90 then c + 32 else c

/-- `lembed_find_gguf_model` -/
def findGgufModel (name : Bytes) : Option GgufModelInfo :=
  loaders.ggufModels.find? fun info => (after (lowered name) (lowered info.name)).isSome

/-- The context that the ONNX path fills. -/
def onnxContext (options : RerankerOptions) (info : RerankerModelInfo) (modelDir : Bytes)
    (quantization : Int) : RerankerContext where
  backendType := .onnx
  quantization
  maxLength := if 0 < options.maxLength then options.maxLength else info.maxTokens
  modelNameStr := info.modelName
  numThreads := options.numThreads
  batchSize := if 0 < options.batchSize then options.batchSize else defaultBatchSize
  provider := options.provider
  deviceId := options.deviceId
  cacheCapacity := if 0 < options.cacheSize then some options.cacheSize.toNat else none
  session := modelDir ++ ascii "/" ++ info.modelFile
  tokenizer := modelDir ++ ascii "/tokenizer.json"

/-- `lembed__reranker_create_onnx_impl`. With no quantization given the registry's applies. -/
def createOnnxImpl (options : RerankerOptions) (quantization : Option Int) (w : RerankerWorld) :
    Status × RerankerWorld :=
  let onnx := loaders.onnx w.attempts
  let w := { w with attempts := w.attempts + 1 }
  match loaders.getRerankerModelInfo options.model with
  | none => (.invalidArgument, w)
  | some info =>
    match onnx.ensureRerankerModel options.model options.cacheDir options.showDownloadProgress
      options.offline with
    | .error failure => (failure, w)
    | .ok modelDir =>
      let ctx := onnxContext options info modelDir (quantization.getD info.quantization)
      let heap := w.heap.alloc ctx
      if onnx.loadSession ctx.session options.numThreads options.provider ctx.quantization &&
          onnx.loadTokenizer ctx.tokenizer ctx.maxLength then
        (.ok, { w with heap, out := some w.heap.next })
      else (.onnxRuntime, { w with heap := heap.free w.heap.next })

/-- `std::filesystem::path::filename` -/
def filename (path : Bytes) : Bytes := (path.reverse.takeWhile (· ≠ 47)).reverse

/-- The context that the llama.cpp path fills. -/
def ggufContext (options : RerankerOptions) (resolvedPath : Bytes) : RerankerContext where
  backendType := .llamacpp
  quantization := Quantization.none.code
  maxLength := if 0 < options.maxLength then options.maxLength else 512
  modelNameStr := filename resolvedPath
  numThreads := if 0 < options.numThreads then options.numThreads else 4
  batchSize := if 0 < options.batchSize then options.batchSize else defaultBatchSize
  provider := providerLlamacpp
  deviceId := options.deviceId
  cacheCapacity := none
  session := resolvedPath
  tokenizer := []

/-- `lembed_reranker_create_from_gguf_path` -/
def createFromGgufPath (ggufPath : Bytes) (options : RerankerOptions) (w : RerankerWorld) :
    Status × RerankerWorld :=
  if ggufPath = [] then (.invalidArgument, w)
  else
    let w := { w with ggufTried := w.ggufTried ++ [ggufPath] }
    match loaders.resolveGgufPath ggufPath options.cacheDir options.offline with
    | .error failure => (failure, w)
    | .ok resolvedPath =>
      let ctx := ggufContext options resolvedPath
      let heap := w.heap.alloc ctx
      if loaders.loadLlama resolvedPath ctx.numThreads then
        (.ok, { w with heap, out := some w.heap.next })
      else (.llama, { w with heap := heap.free w.heap.next })

/-- The GGUF file that stands in for a reranker. -/
def ggufUrl (model : Int) : Option Bytes :=
  (loaders.getRerankerModelInfo model).bind fun info =>
    ((loaders.findGgufModel info.modelName).or (loaders.findGgufModel info.modelCode)).bind
      fun gguf => if gguf.ggufUrl = [] then none else some gguf.ggufUrl

/-- The llama.cpp half of `lembed_reranker_create`. -/
def createGguf (options : RerankerOptions) (w : RerankerWorld) : Status × RerankerWorld :=
  match loaders.ggufUrl options.model with
  | some url => loaders.createFromGgufPath url options w
  | none => (.modelNotFound, w)

/-- `lembed_reranker_create` -/
def create (options : RerankerOptions) (w : RerankerWorld) : Status × RerankerWorld :=
  if options.backend < backendOnnx ∨ backendAuto < options.backend then (.invalidArgument, w)
  else if options.backend = backendLlamacpp then loaders.createGguf options w
  else
    let (s, w) := loaders.createOnnxImpl options none w
    if s = .ok ∨ options.backend = backendOnnx then (s, w)
    else if s ≠ .modelNotFound then (s, w)
    else loaders.createGguf options w

/-- `lembed_reranker_create_v2` -/
def createV2 (options : RerankerOptions) (quantization : Int) (w : RerankerWorld) :
    Status × RerankerWorld :=
  if options.backend = backendLlamacpp then loaders.create options w
  else
    let (s, w) := loaders.createOnnxImpl options (some quantization) w
    if s ≠ .ok ∨ options.backend ≠ backendAuto then (s, w)
    else loaders.create options w

-- ---------------------------------------------------------------------------
-- Attempts
-- ---------------------------------------------------------------------------

/-- What an attempt at ONNX comes to: a status, or the context that is filled. -/
def onnxAttempt (attempt : Nat) (options : RerankerOptions) (quantization : Option Int) :
    Except Status RerankerContext :=
  match loaders.getRerankerModelInfo options.model with
  | none => .error .invalidArgument
  | some info =>
    match (loaders.onnx attempt).ensureRerankerModel options.model options.cacheDir
      options.showDownloadProgress options.offline with
    | .error failure => .error failure
    | .ok modelDir =>
      let ctx := onnxContext options info modelDir (quantization.getD info.quantization)
      if (loaders.onnx attempt).loadSession ctx.session options.numThreads options.provider
          ctx.quantization && (loaders.onnx attempt).loadTokenizer ctx.tokenizer ctx.maxLength then
        .ok ctx
      else .error .onnxRuntime

variable {loaders} {options : RerankerOptions} {quantization : Option Int} {w : RerankerWorld}

/-- A failure is no success. -/
theorem onnxAttempt_error (h : loaders.onnxAttempt attempt options quantization = .error s) :
    s ≠ .ok := by
  unfold onnxAttempt at h
  split at h
  · cases h
    decide
  · split at h
    · rename_i failure _
      cases h
      exact failure.2
    · dsimp only at h
      split at h
      · cases h
      · cases h
        decide

theorem createOnnxImpl_ok (h : loaders.onnxAttempt w.attempts options quantization = .ok ctx) :
    loaders.createOnnxImpl options quantization w = (.ok, { w with
      heap := w.heap.alloc ctx, out := some w.heap.next, attempts := w.attempts + 1 }) := by
  unfold onnxAttempt at h
  unfold createOnnxImpl
  cases hinfo : loaders.getRerankerModelInfo options.model with
  | none =>
    rw [hinfo] at h
    cases h
  | some info =>
    rw [hinfo] at h
    dsimp only at h ⊢
    split at h
    · cases h
    · split at h
      · rename_i hload
        cases h
        rw [if_pos hload]
      · cases h

/-- A call that fails leaves the contexts and `*out` as they were. -/
structure Untouched (w left : RerankerWorld) : Prop where
  next : w.heap.next ≤ left.heap.next
  live : ∀ p, left.heap.Live p ↔ w.heap.Live p
  out : left.out = w.out
  ggufTried : left.ggufTried = w.ggufTried

theorem createOnnxImpl_error (h : loaders.onnxAttempt w.attempts options quantization = .error s) :
    ∃ left, loaders.createOnnxImpl options quantization w = (s, left) ∧ Untouched w left := by
  unfold onnxAttempt at h
  unfold createOnnxImpl
  cases hinfo : loaders.getRerankerModelInfo options.model with
  | none =>
    rw [hinfo] at h
    cases h
    exact ⟨_, rfl, le_rfl, fun _ => Iff.rfl, rfl, rfl⟩
  | some info =>
    rw [hinfo] at h
    dsimp only at h ⊢
    split at h
    · cases h
      exact ⟨_, rfl, le_rfl, fun _ => Iff.rfl, rfl, rfl⟩
    · split at h
      · cases h
      · rename_i hload
        cases h
        rw [if_neg hload]
        exact ⟨_, rfl, Nat.le_succ _, fun _ => Heap.live_alloc_free_iff, rfl, rfl⟩

-- ---------------------------------------------------------------------------
-- Contexts that nobody can reach
-- ---------------------------------------------------------------------------

/-- Of the contexts that a call made, only the one in `*out` is left. -/
def NoneLost (w left : RerankerWorld) : Prop :=
  ∀ p, w.heap.next ≤ p → left.heap.Live p → left.out = some p

theorem noneLost_of_untouched (h : Untouched w left) : NoneLost w left :=
  fun _ hnew hlive => absurd ((h.live _).mp hlive) (Heap.not_live_fresh hnew)

theorem noneLost_alloc (hheap : left.heap = w.heap.alloc ctx) (hout : left.out = some w.heap.next) :
    NoneLost w left := by
  intro p hnew hlive
  rw [hheap, Heap.live_alloc_iff] at hlive
  rcases hlive with rfl | hold
  · exact hout
  · exact absurd hold (Heap.not_live_fresh hnew)

theorem createOnnxImpl_noneLost (options : RerankerOptions) (quantization : Option Int)
    (w : RerankerWorld) : NoneLost w (loaders.createOnnxImpl options quantization w).2 := by
  cases hattempt : loaders.onnxAttempt w.attempts options quantization with
  | ok ctx =>
    rw [createOnnxImpl_ok hattempt]
    exact noneLost_alloc rfl rfl
  | error s =>
    obtain ⟨left, hcreate, huntouched⟩ := createOnnxImpl_error hattempt
    rw [hcreate]
    exact noneLost_of_untouched huntouched

theorem createFromGgufPath_noneLost (ggufPath : Bytes) (options : RerankerOptions)
    (w : RerankerWorld) : NoneLost w (loaders.createFromGgufPath ggufPath options w).2 := by
  unfold createFromGgufPath
  split
  · exact noneLost_of_untouched ⟨le_rfl, fun _ => Iff.rfl, rfl, rfl⟩
  · dsimp only
    split
    · exact fun _ hnew hlive => absurd hlive (Heap.not_live_fresh hnew)
    · split
      · exact noneLost_alloc rfl rfl
      · exact fun _ hnew hlive =>
          absurd (Heap.live_alloc_free_iff.mp hlive) (Heap.not_live_fresh hnew)

theorem createGguf_noneLost (options : RerankerOptions) (w : RerankerWorld) :
    NoneLost w (loaders.createGguf options w).2 := by
  unfold createGguf
  split
  · exact createFromGgufPath_noneLost _ options w
  · exact noneLost_of_untouched ⟨le_rfl, fun _ => Iff.rfl, rfl, rfl⟩

theorem ggufUrl_ne_nil (h : loaders.ggufUrl model = some url) : url ≠ [] := by
  obtain ⟨info, -, hgguf⟩ := Option.bind_eq_some_iff.mp h
  obtain ⟨gguf, -, hurl⟩ := Option.bind_eq_some_iff.mp hgguf
  split at hurl
  · cases hurl
  · rename_i hne
    cases hurl
    exact hne

theorem createGguf_tried (options : RerankerOptions) (w : RerankerWorld) :
    (loaders.createGguf options w).2.ggufTried =
      w.ggufTried ++ (loaders.ggufUrl options.model).toList := by
  unfold createGguf
  cases hurl : loaders.ggufUrl options.model with
  | none => exact (List.append_nil _).symm
  | some url =>
    dsimp only
    unfold createFromGgufPath
    rw [if_neg (ggufUrl_ne_nil hurl)]
    dsimp only
    split
    · rfl
    · split <;> rfl

-- ---------------------------------------------------------------------------
-- The policy
-- ---------------------------------------------------------------------------

variable (loaders options) in
/-- With `AUTO`: a context that ONNX gives is handed back with the mode that was asked for, and a
GGUF file is tried exactly when ONNX does not find the model. With any backend: no context is lost. -/
structure KeepsPolicy (mode : Int) (w : RerankerWorld) : Prop where
  handsBack : options.backend = backendAuto → ∀ ctx,
    loaders.onnxAttempt w.attempts options (some mode) = .ok ctx →
      ctx.quantization = mode ∧ (loaders.createV2 options mode w).1 = .ok ∧
        ∃ p, (loaders.createV2 options mode w).2.out = some p ∧
          (loaders.createV2 options mode w).2.heap.cells p = some ctx
  triesGguf : options.backend = backendAuto →
    (loaders.createV2 options mode w).2.ggufTried = w.ggufTried ++
      if loaders.onnxAttempt w.attempts options (some mode) = .error .modelNotFound then
        (loaders.ggufUrl options.model).toList
      else []
  noneLost : NoneLost w (loaders.createV2 options mode w).2

/-- The versioned creator asks the other one again left a success: the first context is lost, or
the call fails, or a GGUF file is tried. -/
theorem not_keepsPolicy_of_ok (hauto : options.backend = backendAuto)
    (hok : loaders.onnxAttempt w.attempts options (some mode) = .ok ctx) :
    ¬KeepsPolicy loaders options mode w := by
  intro h
  have htries := h.triesGguf hauto
  obtain ⟨-, hstatus, -⟩ := h.handsBack hauto ctx hok
  have hlost := h.noneLost
  have hagain : loaders.createV2 options mode w = loaders.create options { w with
      heap := w.heap.alloc ctx, out := some w.heap.next, attempts := w.attempts + 1 } := by
    rw [createV2, if_neg (by rw [hauto]; decide), createOnnxImpl_ok hok]
    dsimp only
    rw [if_neg (by rintro (hne | hne); exacts [hne rfl, hne hauto])]
  rw [hok, if_neg (by rintro ⟨⟩), List.append_nil] at htries
  rw [hagain, create, if_neg (by rw [hauto]; decide), if_neg (by rw [hauto]; decide)]
    at htries hstatus hlost
  dsimp only at htries hstatus hlost
  cases hsecond : loaders.onnxAttempt (w.attempts + 1) options none with
  | ok second =>
    -- The first context is still there, and `*out` holds the second.
    rw [createOnnxImpl_ok hsecond] at hlost
    dsimp only at hlost
    rw [if_pos (.inl rfl)] at hlost
    have hfirst := hlost w.heap.next le_rfl
      (Heap.live_alloc_iff.mpr (.inr Heap.live_alloc))
    rw [Option.some_inj, Heap.next_alloc] at hfirst
    omega
  | error s =>
    have hs := onnxAttempt_error hsecond
    obtain ⟨left, hcreate, huntouched⟩ := createOnnxImpl_error
      (w := { w with heap := w.heap.alloc ctx, out := some w.heap.next, attempts := w.attempts + 1 })
        hsecond
    have hnotFirst : ¬(s = .ok ∨ options.backend = backendOnnx) := by
      rintro (hsame | honnx)
      · exact hs hsame
      · rw [hauto] at honnx
        cases honnx
    rw [hcreate] at htries hstatus
    dsimp only at htries hstatus
    rw [if_neg hnotFirst] at htries hstatus
    by_cases hmissing : s = .modelNotFound
    · rw [if_neg (by simpa using hmissing)] at htries hstatus
      rw [createGguf_tried, huntouched.ggufTried, List.append_right_eq_self, Option.toList_eq_nil_iff]
        at htries
      rw [createGguf, htries] at hstatus
      cases hstatus
    · rw [if_pos hmissing] at hstatus
      exact hs hstatus

/-- After a failure nothing more is attempted. -/
theorem createV2_error (hauto : options.backend = backendAuto)
    (herror : loaders.onnxAttempt w.attempts options (some mode) = .error s) :
    ∃ left, loaders.createV2 options mode w = (s, left) ∧ Untouched w left := by
  obtain ⟨left, hcreate, huntouched⟩ := createOnnxImpl_error herror
  refine ⟨left, ?_, huntouched⟩
  rw [createV2, if_neg (by rw [hauto]; decide), hcreate]
  dsimp only
  rw [if_pos (.inl (onnxAttempt_error herror))]

theorem createV2_noneLost (hexplicit : options.backend ≠ backendAuto) (mode : Int)
    (w : RerankerWorld) : NoneLost w (loaders.createV2 options mode w).2 := by
  unfold createV2
  split
  · rename_i hllama
    rw [create, if_neg (by rw [hllama]; decide), if_pos hllama]
    exact createGguf_noneLost options w
  · dsimp only
    rw [if_pos (.inr hexplicit)]
    exact createOnnxImpl_noneLost options (some mode) w

/-- The policy is kept exactly when, with `AUTO`, ONNX fails, and not because it finds no model that
a GGUF file could stand in for. -/
theorem keepsPolicy_iff (loaders : RerankerLoaders) (options : RerankerOptions) (mode : Int)
    (w : RerankerWorld) : KeepsPolicy loaders options mode w ↔
      (options.backend = backendAuto →
        ∃ s, loaders.onnxAttempt w.attempts options (some mode) = .error s ∧
          (s = .modelNotFound → loaders.ggufUrl options.model = none)) := by
  constructor
  · intro h hauto
    cases hattempt : loaders.onnxAttempt w.attempts options (some mode) with
    | ok ctx => exact absurd h (not_keepsPolicy_of_ok hauto hattempt)
    | error s =>
      refine ⟨s, rfl, ?_⟩
      rintro rfl
      obtain ⟨left, hcreate, huntouched⟩ := createV2_error hauto hattempt
      have htries := h.triesGguf hauto
      rw [hcreate, hattempt, if_pos rfl, huntouched.ggufTried, List.self_eq_append_right,
        Option.toList_eq_nil_iff] at htries
      exact htries
  · intro h
    by_cases hauto : options.backend = backendAuto
    · obtain ⟨s, herror, hmissing⟩ := h hauto
      obtain ⟨left, hcreate, huntouched⟩ := createV2_error hauto herror
      refine ⟨fun _ ctx hok => ?_, fun _ => ?_, ?_⟩
      · rw [herror] at hok
        cases hok
      · rw [hcreate, herror, huntouched.ggufTried]
        split
        · rename_i hsame
          rw [hmissing (Except.error.inj hsame)]
          exact (List.append_nil _).symm
        · exact (List.append_nil _).symm
      · rw [hcreate]
        exact noneLost_of_untouched huntouched
    · exact ⟨fun h => absurd h hauto, fun h => absurd h hauto, createV2_noneLost hauto mode w⟩

-- ---------------------------------------------------------------------------
-- A reranker whose weights are there
-- ---------------------------------------------------------------------------

def turboLoaders : RerankerLoaders where
  rerankers := [{
    modelName := ascii "jinaai/jina-reranker-v1-turbo-en"
    modelCode := ascii "jinaai/jina-reranker-v1-turbo-en"
    modelFile := ascii "onnx/model.onnx"
    maxTokens := 8192
    quantization := 0 }]
  ggufModels := []
  onnx _ := {
    ensureRerankerModel := fun _ _ _ _ => .ok (ascii "/cache/models--jinaai--jina-reranker-v1-turbo-en")
    loadSession := fun _ _ _ _ => true
    loadTokenizer := fun _ _ => true }
  resolveGgufPath _ _ _ := .error ⟨.download, by decide⟩
  loadLlama _ _ := false

def nothingCreated : RerankerWorld where
  heap := .empty
  out := none

/-- Asked for the dynamic mode, the versioned creator makes two contexts, and hands back the one
without it. -/
theorem turbo_not_keepsPolicy : ¬KeepsPolicy turboLoaders { model := 0 } 2 nothingCreated := by
  intro h
  have hlost := h.noneLost 0 (by decide +kernel) (by decide +kernel)
  revert hlost
  decide +kernel

end RerankerLoaders

end LibEmbedding
