import LibEmbedding.DenseBackends
import LibEmbedding.Foundation.Logged
import LibEmbedding.ImageEmbedding
import LibEmbedding.Reranker

/-!
# The inference runs of a call

The ONNX paths once more, with an event for every run of a session. Without their events
they are the paths themselves.
-/

namespace LibEmbedding

open Foundation Logged

/-- A computation that leaves one event for every run of a session. -/
abbrev Runs (α : Type) := Logged Unit Fault α

namespace OnnxEmbedder

-- ---------------------------------------------------------------------------
-- Text
-- ---------------------------------------------------------------------------

def pooledBatchRuns (e : OnnxEmbedder) (pooledBuf : List ℚ) (batchTexts : List Bytes) :
    Runs (Outcome (List ℚ × Nat)) := do
  let batch ← lift (e.flatBatch batchTexts)
  emit ()
  match e.session.run batch e.outputIndex with
  | .threw => return .threw
  | .returned outputs =>
    let output ← lift (Foundation.get outputs 0)
    let pooled ← lift (e.poolOutput pooledBuf batch output)
    return .returned pooled

def embedBatchRuns (e : OnnxEmbedder) (texts : List Bytes) (indices : List Nat)
    (effectiveBatch : Int) (s : Outcome (List ℚ × List ℚ)) (bi : Nat) :
    Runs (Outcome (List ℚ × List ℚ)) :=
  match s with
  | .threw => return .threw
  | .returned (resultData, pooledBuf) => do
    let range ← lift (getBatch bi texts.length effectiveBatch)
    let start := range.start.toNat
    let bsz := (range.stop - range.start).toNat
    let batch ← lift (batchTexts texts indices start bsz)
    match ← e.pooledBatchRuns pooledBuf batch with
    | .threw => return .threw
    | .returned (pooledBuf, _) =>
      let resultData ← lift (Foundation.forUpTo bsz (copyRow e.dim indices start pooledBuf)
        resultData)
      return .returned (resultData, pooledBuf)

def onnxEmbedRuns (e : OnnxEmbedder) (texts : List Bytes) (batchSize : Int)
    (resultData : List ℚ) : Runs (Outcome (Status × List ℚ)) := do
  let indices ← lift (e.embedIndices texts)
  let effectiveBatch := if e.batchStrategy = .sequential then 1 else batchSize
  let numBatches ← lift (batchCount texts.length effectiveBatch)
  match ← Logged.forUpTo numBatches.toNat (e.embedBatchRuns texts indices effectiveBatch)
      (.returned (resultData, e.pooledBuf)) with
  | .threw => return .threw
  | .returned (resultData, _) => return .returned (.ok, resultData)

theorem result_pooledBatchRuns (e : OnnxEmbedder) (pooledBuf : List ℚ) (batchTexts : List Bytes) :
    (e.pooledBatchRuns pooledBuf batchTexts).result = e.pooledBatch pooledBuf batchTexts := by
  simp only [pooledBatchRuns, pooledBatch, result_bind, result_lift, result_emit, ok_bind]
  congr 1
  funext batch
  cases e.session.run batch e.outputIndex with
  | threw => rfl
  | returned outputs => simp only [result_bind, result_lift]; rfl

theorem result_embedBatchRuns (e : OnnxEmbedder) (texts : List Bytes) (indices : List Nat)
    (effectiveBatch : Int) (s : Outcome (List ℚ × List ℚ)) (bi : Nat) :
    (e.embedBatchRuns texts indices effectiveBatch s bi).result =
      e.embedBatch texts indices effectiveBatch s bi := by
  cases s with
  | threw => rfl
  | returned s =>
    simp only [embedBatchRuns, embedBatch, result_bind, result_lift, result_pooledBatchRuns]
    congr 1
    funext range
    congr 1
    funext batch
    congr 1
    funext pooled
    cases pooled with
    | threw => rfl
    | returned pooled => simp only [result_bind, result_lift]; rfl

theorem result_onnxEmbedRuns (e : OnnxEmbedder) (texts : List Bytes) (batchSize : Int)
    (resultData : List ℚ) :
    (e.onnxEmbedRuns texts batchSize resultData).result = e.onnxEmbed texts batchSize resultData := by
  simp only [onnxEmbedRuns, onnxEmbed, result_bind, result_lift, result_forUpTo,
    result_embedBatchRuns]
  congr 1
  funext indices
  congr 1
  funext numBatches
  congr 1
  funext s
  cases s with
  | threw => rfl
  | returned s => rfl

end OnnxEmbedder

/-- A call of `lembed_text_embedding_embed` and the two backends of its context. -/
structure TextRequest where
  texts : List Bytes
  batchSize : Int
  now : Int
  onnx : OnnxEmbedder
  llama : LlamaEmbedder

def TextRequest.call (r : TextRequest) : EmbedCall ℚ where
  texts := r.texts
  batchSize := r.batchSize
  now := r.now
  backend := ⟨r.onnx.onnxEmbed, r.llama.llamaEmbedBatch⟩

namespace TextEmbedding

variable {ctx : TextEmbedding ℚ}

/-- A run of llama.cpp is no run of an ONNX session. -/
def embedSubsetRuns (ctx : TextEmbedding ℚ) (r : TextRequest) (subset : List Bytes)
    (batchSize : Int) (out : List ℚ) : Runs (Outcome (Status × List ℚ)) :=
  match ctx.backendType with
  | .llamacpp => lift (ctx.embedSubset r.call.backend subset batchSize out)
  | .onnx => r.onnx.onnxEmbedRuns subset batchSize out

def embedThroughRuns (ctx : TextEmbedding ℚ) (cache : LRUCache Bytes ℚ) (r : TextRequest)
    (batchSize : Int) (data : List ℚ) : Runs (EmbedReply ℚ × TextEmbedding ℚ) := do
  let n := r.texts.length
  let split ← lift (Foundation.forUpTo n (lookupText r.now r.texts ctx.dim)
    ⟨data, cache, [], [], ctx.cacheHits, ctx.cacheMisses⟩)
  let ctx := { ctx with cache := some split.cache
                        cacheHits := split.cacheHits
                        cacheMisses := split.cacheMisses }
  if split.missTexts = [] then lift (ctx.finish n 0 batchSize split.data)
  else
    let missBuf := malloc (split.missTexts.length * ctx.dim)
    match ← ctx.embedSubsetRuns r split.missTexts batchSize missBuf with
    | .threw => return (⟨ctx.exceptionStatus, some ⟨none, n, ctx.dim⟩⟩, ctx)
    | .returned (status, missBuf) =>
      if status = .ok then
        let (data, cache) ← lift (Foundation.forUpTo split.missIndices.length
          (scatterMiss r.now r.texts ctx.dim missBuf split.missIndices)
          (split.data, split.cache))
        lift ({ ctx with cache := some cache }.finish n split.missTexts.length batchSize data)
      else return (⟨status, some ⟨some split.data, n, ctx.dim⟩⟩, ctx)

def embedAllRuns (ctx : TextEmbedding ℚ) (r : TextRequest) (batchSize : Int) (data : List ℚ) :
    Runs (EmbedReply ℚ × TextEmbedding ℚ) := do
  let n := r.texts.length
  match ← ctx.embedSubsetRuns r r.texts batchSize data with
  | .threw => return (⟨ctx.exceptionStatus, some ⟨none, n, ctx.dim⟩⟩, ctx)
  | .returned (status, data) =>
    if status = .ok then lift (ctx.finish n n batchSize data)
    else return (⟨status, some ⟨some data, n, ctx.dim⟩⟩, ctx)

/-- The batch size a call runs with. -/
def callSize (ctx : TextEmbedding ℚ) (r : TextRequest) : Int :=
  if r.batchSize ≤ 0 then ctx.batchSize else r.batchSize

def embedRuns (ctx : TextEmbedding ℚ) (r : TextRequest) :
    Runs (EmbedReply ℚ × TextEmbedding ℚ) :=
  if r.texts.length = 0 then return (⟨.invalidArgument, none⟩, ctx)
  else
    let data := malloc (r.texts.length * ctx.dim)
    match ctx.cache with
    | some cache => ctx.embedThroughRuns cache r (ctx.callSize r) data
    | none => ctx.embedAllRuns r (ctx.callSize r) data

theorem result_embedSubsetRuns (r : TextRequest) (subset : List Bytes) (batchSize : Int)
    (out : List ℚ) : (ctx.embedSubsetRuns r subset batchSize out).result =
      ctx.embedSubset r.call.backend subset batchSize out := by
  unfold embedSubsetRuns embedSubset
  cases ctx.backendType with
  | llamacpp => rfl
  | onnx => exact r.onnx.result_onnxEmbedRuns subset batchSize out

theorem result_embedThroughRuns (cache : LRUCache Bytes ℚ) (r : TextRequest) (batchSize : Int)
    (data : List ℚ) : (ctx.embedThroughRuns cache r batchSize data).result =
      ctx.embedThrough cache r.call batchSize data := by
  simp only [embedThroughRuns, embedThrough, result_bind, result_lift, TextRequest.call]
  congr 1
  funext split
  by_cases hnil : split.missTexts = []
  · rw [if_pos hnil, if_pos hnil]
    rfl
  · rw [if_neg hnil, if_neg hnil, result_bind, result_embedSubsetRuns]
    congr 1
    funext outcome
    cases outcome with
    | threw => rfl
    | returned out =>
      dsimp only
      split
      · simp only [result_bind, result_lift]
      · rfl

theorem result_embedAllRuns (r : TextRequest) (batchSize : Int) (data : List ℚ) :
    (ctx.embedAllRuns r batchSize data).result = ctx.embedAll r.call batchSize data := by
  simp only [embedAllRuns, embedAll, result_bind, result_embedSubsetRuns, TextRequest.call]
  congr 1
  funext outcome
  cases outcome with
  | threw => rfl
  | returned out =>
    dsimp only
    split <;> rfl

/-- Without its events a call is `lembed_text_embedding_embed`. -/
theorem result_embedRuns (ctx : TextEmbedding ℚ) (r : TextRequest) :
    (ctx.embedRuns r).result = ctx.embed r.call := by
  unfold embedRuns embed
  by_cases hempty : r.texts.length = 0
  · rw [if_pos hempty, if_pos (by exact hempty)]
    rfl
  · rw [if_neg hempty, if_neg (by exact hempty)]
    cases hcache : ctx.cache with
    | none => exact result_embedAllRuns ..
    | some cache => exact result_embedThroughRuns ..

end TextEmbedding

-- ---------------------------------------------------------------------------
-- Reranking
-- ---------------------------------------------------------------------------

namespace Reranker

def scoreBatchRuns (m : RerankModel) (call : RerankCall) (missIndices : List Nat)
    (batchSize : Int) (s : Scoring) (bi : Nat) : Runs Scoring :=
  if s.threw then return s
  else do
    let range ← lift (getBatch bi missIndices.length batchSize)
    let start := range.start.toNat
    let bsz := (range.stop - range.start).toNat
    let pairs ← lift ((List.range' start bsz).mapM (missText call missIndices))
    emit ()
    match m.session.run (pairBatch m.tokenizer pairs) (-1) with
    | .threw => return { s with threw := true }
    | .returned outputs =>
      let output ← lift (Foundation.get outputs 0)
      lift (Foundation.forUpTo bsz (storeRow call missIndices start output) s)

def scoreMissesRuns (m : RerankModel) (call : RerankCall) (missIndices : List Nat)
    (batchSize : Int) (s : Scoring) : Runs Scoring :=
  if missIndices = [] then return s
  else
    match m.backendType with
    | .llamacpp => lift (scoreLlama m call missIndices batchSize s)
    | .onnx => do
      let numBatches ← lift (batchCount missIndices.length batchSize)
      Logged.forUpTo numBatches.toNat (scoreBatchRuns m call missIndices batchSize) s

def rerankRuns (m : RerankModel) (call : RerankCall) (ctx : Reranker) :
    Runs (RerankReply × Reranker) := do
  let n := call.documents.length
  if n = 0 then return (⟨.invalidArgument, none⟩, ctx)
  let batchSize := if call.batchSize ≤ 0 then ctx.batchSize else call.batchSize
  let (allScores, missIndices, ctx) ← lift (ctx.splitDocuments call)
  let s ← scoreMissesRuns m call missIndices batchSize ⟨allScores, ctx.cache, false⟩
  let ctx := { ctx with cache := s.cache }
  if s.threw then return (⟨.onnxRuntime, none⟩, ctx)
  let items ← lift (m.sorter.sort ranksBefore (s.allScores.zipIdx.map fun e => ⟨e.2, e.1⟩))
  let count ← lift (batchCount n batchSize)
  return (⟨.ok, some items⟩, { ctx with textsEmbedded := ctx.textsEmbedded + n
                                        batchesRun := ctx.batchesRun + count.toNat
                                        statsCalls := ctx.statsCalls + 1 })

theorem result_scoreBatchRuns (m : RerankModel) (call : RerankCall) (missIndices : List Nat)
    (batchSize : Int) (s : Scoring) (bi : Nat) :
    (scoreBatchRuns m call missIndices batchSize s bi).result =
      scoreBatch m call missIndices batchSize s bi := by
  unfold scoreBatchRuns scoreBatch
  split
  · rfl
  · simp only [result_bind, result_lift, result_emit, ok_bind]
    congr 1
    funext range
    congr 1
    funext pairs
    cases m.session.run (pairBatch m.tokenizer pairs) (-1) with
    | threw => rfl
    | returned outputs => simp only [result_bind, result_lift]

theorem result_scoreMissesRuns (m : RerankModel) (call : RerankCall) (missIndices : List Nat)
    (batchSize : Int) (s : Scoring) :
    (scoreMissesRuns m call missIndices batchSize s).result =
      scoreMisses m call missIndices batchSize s := by
  unfold scoreMissesRuns scoreMisses
  split
  · rfl
  · cases m.backendType with
    | llamacpp => rfl
    | onnx =>
      simp only [scoreOnnx, result_bind, result_lift, result_forUpTo, result_scoreBatchRuns]

/-- Without its events a call is `lembed_reranker_rerank`. -/
theorem result_rerankRuns (m : RerankModel) (call : RerankCall) (ctx : Reranker) :
    (rerankRuns m call ctx).result = ctx.rerank m call := by
  unfold rerankRuns rerank
  dsimp only
  split
  · rfl
  · simp only [result_bind, result_lift, result_scoreMissesRuns]
    congr 1
    funext split
    congr 1
    funext s
    split
    · rfl
    · simp only [result_bind, result_lift]
      rfl

end Reranker

-- ---------------------------------------------------------------------------
-- Images
-- ---------------------------------------------------------------------------

namespace ImageModel

def runBatchRuns (m : ImageModel) (load : Nat → Checked (Outcome Pixels)) (n : Nat)
    (batchSize : Int) (bi : Nat) : Runs (Outcome (Nat × Tensor ℚ)) := do
  let range ← lift (getBatch bi n batchSize)
  let start := range.start.toNat
  let bsz := (range.stop - range.start).toNat
  match ← lift (fillBatch load start bsz) with
  | .threw => return .threw
  | .returned batchData =>
    let name ← lift m.inputName
    emit ()
    match m.run name batchData [bsz, 3, targetSize, targetSize] with
    | .threw => return .threw
    | .returned outputs =>
      let output ← lift (Foundation.get outputs 0)
      return .returned (bsz, output)

def embedBatchRuns (m : ImageModel) (dim : Nat) (outDim : List Nat → Nat)
    (load : Nat → Checked (Outcome Pixels)) (n : Nat) (batchSize : Int)
    (s : Outcome (List ℚ × Nat)) (bi : Nat) : Runs (Outcome (List ℚ × Nat)) :=
  match s with
  | .threw => return .threw
  | .returned s => do
    match ← m.runBatchRuns load n batchSize bi with
    | .threw => return .threw
    | .returned (bsz, output) =>
      let s ← lift (m.storeBatch dim (outDim output.shape) s bsz output)
      return .returned s

def embedBatchesRuns (m : ImageModel) (dim : Nat) (outDim : List Nat → Nat)
    (load : Nat → Checked (Outcome Pixels)) (n : Nat) (batchSize : Int) :
    Runs (Outcome (List ℚ) × Nat) := do
  let numBatches ← lift (batchCount n batchSize)
  match ← Logged.forUpTo numBatches.toNat (m.embedBatchRuns dim outDim load n batchSize)
      (.returned (malloc (n * dim), 0)) with
  | .threw => return (.threw, numBatches.toNat)
  | .returned (resultData, _) => return (.returned resultData, numBatches.toNat)

theorem result_runBatchRuns (m : ImageModel) (load : Nat → Checked (Outcome Pixels)) (n : Nat)
    (batchSize : Int) (bi : Nat) :
    (m.runBatchRuns load n batchSize bi).result = m.runBatch load n batchSize bi := by
  simp only [runBatchRuns, runBatch, result_bind, result_lift]
  congr 1
  funext range
  congr 1
  funext filled
  cases filled with
  | threw => rfl
  | returned batchData =>
    simp only [result_bind, result_lift, result_emit, ok_bind]
    congr 1
    funext name
    cases m.run name batchData [(range.stop - range.start).toNat, 3, targetSize, targetSize] with
    | threw => rfl
    | returned outputs => simp only [result_bind, result_lift]; rfl

theorem result_embedBatchRuns (m : ImageModel) (dim : Nat) (outDim : List Nat → Nat)
    (load : Nat → Checked (Outcome Pixels)) (n : Nat) (batchSize : Int)
    (s : Outcome (List ℚ × Nat)) (bi : Nat) :
    (m.embedBatchRuns dim outDim load n batchSize s bi).result =
      m.embedBatch dim outDim load n batchSize s bi := by
  cases s with
  | threw => rfl
  | returned s =>
    simp only [embedBatchRuns, embedBatch, result_bind, result_runBatchRuns]
    congr 1
    funext outcome
    cases outcome with
    | threw => rfl
    | returned out => simp only [result_bind, result_lift]; rfl

theorem result_embedBatchesRuns (m : ImageModel) (dim : Nat) (outDim : List Nat → Nat)
    (load : Nat → Checked (Outcome Pixels)) (n : Nat) (batchSize : Int) :
    (m.embedBatchesRuns dim outDim load n batchSize).result =
      m.embedBatches dim outDim load n batchSize := by
  simp only [embedBatchesRuns, embedBatches, result_bind, result_lift, result_forUpTo,
    result_embedBatchRuns]
  congr 1
  funext numBatches
  congr 1
  funext s
  cases s with
  | threw => rfl
  | returned s => rfl

end ImageModel

namespace ImageEmbedding

def embedFilesRuns (ctx : ImageEmbedding) (m : ImageModel) (paths : List Bytes)
    (batchSize : Int) : Runs (EmbedReply ℚ × ImageEmbedding) :=
  if paths.length = 0 then return (⟨.invalidArgument, none⟩, ctx)
  else do
    let (result, _) ← m.embedBatchesRuns ctx.dim ctx.outDim (m.loadFile paths) paths.length
      (ctx.callSize batchSize)
    return (ctx.reply paths.length result, ctx)

def embedBytesRuns (ctx : ImageEmbedding) (m : ImageModel) (images : List Bytes)
    (batchSize : Int) : Runs (EmbedReply ℚ × ImageEmbedding) :=
  if images.length = 0 then return (⟨.invalidArgument, none⟩, ctx)
  else do
    let (result, numBatches) ← m.embedBatchesRuns ctx.dim (fun _ => ctx.dim)
      (m.loadBytes images) images.length (ctx.callSize batchSize)
    match result with
    | .threw => return (ctx.reply images.length result, ctx)
    | .returned _ => return (ctx.reply images.length result, ctx.count images.length numBatches)

/-- Without its events a call is `lembed_image_embedding_embed_files`. -/
theorem result_embedFilesRuns (ctx : ImageEmbedding) (m : ImageModel) (paths : List Bytes)
    (batchSize : Int) :
    (ctx.embedFilesRuns m paths batchSize).result = ctx.embedFiles m paths batchSize := by
  unfold embedFilesRuns embedFiles
  split
  · rfl
  · simp only [result_bind, m.result_embedBatchesRuns]
    rfl

/-- Without its events a call is `lembed_image_embedding_embed_bytes`. -/
theorem result_embedBytesRuns (ctx : ImageEmbedding) (m : ImageModel) (images : List Bytes)
    (batchSize : Int) :
    (ctx.embedBytesRuns m images batchSize).result = ctx.embedBytes m images batchSize := by
  unfold embedBytesRuns embedBytes
  split
  · rfl
  · simp only [result_bind, m.result_embedBatchesRuns]
    congr 1
    funext out
    obtain ⟨result, numBatches⟩ := out
    cases result with
    | threw => rfl
    | returned data => rfl

end ImageEmbedding

end LibEmbedding
