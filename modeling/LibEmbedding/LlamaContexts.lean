import LibEmbedding.DenseLlama
import LibEmbedding.LlamaSession
import LibEmbedding.Reranker
import LibEmbedding.TextEmbedding

/-!
# Contexts over a GGUF file

The creators of `text_embedding_llama_impl.hpp` and `reranker_llama_impl.hpp` and the calls that
go to the session. A text context holds a session and a pool; the options say which of the two
is loaded.
-/

namespace LibEmbedding

open Foundation

/-- What the creator reads of `lembed_text_options_t`. -/
structure LlamaTextOptions where
  maxLength : Int
  numThreads : Int
  batchSize : Int
  cacheSize : Int
  nCtx : Int
  nGpuLayers : Int
  nBatch : Int
  autoWorkers : Bool
  deriving DecidableEq, Repr

/-- `lembed_text_embedding` -/
structure LlamaTextEmbedding where
  session : LlamaSession
  pool : LlamaPool
  dim : Nat
  maxLength : Int
  numThreads : Int
  batchSize : Int
  cacheSize : Int

namespace LlamaTextEmbedding

/-- The branch on `auto_workers`: the object that is not loaded stays as it was built. -/
def load (cpp : LlamaCpp) (physicalCores : Int) (ggufPath : Bytes) (options : LlamaTextOptions)
    (numThreads : Int) : Outcome (LlamaSession × LlamaPool) :=
  if options.autoWorkers then
    match LlamaPool.loadFromFileAuto cpp physicalCores ggufPath options.nCtx options.nGpuLayers
        options.nBatch with
    | .returned pool => .returned (.new, pool)
    | .threw => .threw
  else
    match LlamaSession.loadFromFile cpp ggufPath numThreads options.nCtx options.nGpuLayers
        options.nBatch with
    | .returned session => .returned (session, .new)
    | .threw => .threw

def createFromGgufPath (cpp : LlamaCpp) (physicalCores : Int) (ggufPath : Bytes)
    (options : LlamaTextOptions) : Except Status LlamaTextEmbedding :=
  if ggufPath = [] then .error .invalidArgument
  else
    let maxLength := if 0 < options.maxLength then options.maxLength else 0
    let numThreads := if 0 < options.numThreads then options.numThreads else 4
    let batchSize := if 0 < options.batchSize then options.batchSize else defaultBatchSize
    match load cpp physicalCores ggufPath options numThreads with
    | .threw => .error .llama
    | .returned (session, pool) => .ok
      { session, pool, numThreads, batchSize
        dim := session.dimension
        maxLength := if maxLength = 0 then session.maxContext else maxLength
        cacheSize := options.cacheSize }

def llamaEmbedSingle (ctx : LlamaTextEmbedding) (text : Bytes) (outData : List ℚ) (off : Nat) :
    LlamaCall (List ℚ) := do
  let emb ← ctx.session.embed text
  let emb ← Logged.lift (ofChecked (readAt emb 0 ctx.dim))
  Logged.lift (ofChecked (writeAt outData off emb))

def llamaEmbedBatch (ctx : LlamaTextEmbedding) (sqrt : ℚ → ℚ) (texts : List Bytes)
    (resultData : List ℚ) : LlamaCall (List ℚ) := do
  let resultData ← Logged.forUpTo texts.length (fun resultData i => do
    let text ← Logged.lift (ofChecked (get texts i))
    ctx.llamaEmbedSingle text resultData (i * ctx.dim)) resultData
  Logged.lift (ofChecked (l2Normalize sqrt resultData texts.length ctx.dim))

/-- The callback gets what the log says was delivered. -/
def llamaEmbedStream (ctx : LlamaTextEmbedding) (sqrt : ℚ → ℚ) (texts : List Bytes) :
    LlamaCall Unit :=
  Logged.forUpTo texts.length (fun _ i => do
    let text ← Logged.lift (ofChecked (get texts i))
    let emb ← ctx.llamaEmbedSingle text (malloc maxDim) 0
    let emb ← Logged.lift (ofChecked (l2Normalize sqrt emb 1 ctx.dim))
    let vec ← Logged.lift (ofChecked (readAt emb 0 ctx.dim))
    Logged.emit (.delivered vec)) ()

/-- Without its log and over a session that never faults, a batch is the one of `LlamaEmbedder`. -/
theorem settle_embedBatch {ctx : LlamaTextEmbedding} {session : Bytes → Outcome (List ℚ)}
    (h : ∀ text, settle (ctx.session.embed text).result = .ok (session text)) (sqrt : ℚ → ℚ)
    (texts : List Bytes) (resultData : List ℚ) :
    settle (ctx.llamaEmbedBatch sqrt texts resultData).result =
      LlamaEmbedder.llamaEmbedBatch ⟨session, ctx.dim, sqrt⟩ texts resultData := by
  have hsingle : ∀ text data off, settle (ctx.llamaEmbedSingle text data off).result =
      LlamaEmbedder.embedSingle ⟨session, ctx.dim, sqrt⟩ text data off := by
    intro text data off
    rw [llamaEmbedSingle, Logged.result_bind, settle_bind, h, ok_bind, LlamaEmbedder.embedSingle]
    dsimp only
    cases session text with
    | threw => rfl
    | returned v =>
      dsimp only
      rw [Logged.result_bind, Logged.result_lift, settle_bind, settle_ofChecked]
      cases readAt v 0 ctx.dim with
      | error fault => rfl
      | ok emb =>
        change settle (ofChecked (writeAt data off emb)) = writeAt data off emb >>= _
        rw [settle_ofChecked]
        cases writeAt data off emb with
        | error fault => rfl
        | ok out => rfl
  have htext : ∀ i data, settle (Logged.lift (ofChecked (get texts i)) >>= fun text =>
      ctx.llamaEmbedSingle text data (i * ctx.dim) : LlamaCall (List ℚ)).result =
      LlamaEmbedder.embedText ⟨session, ctx.dim, sqrt⟩ texts (.returned data) i := by
    intro i data
    rw [Logged.result_bind, Logged.result_lift, settle_bind, settle_ofChecked,
      LlamaEmbedder.embedText]
    cases Foundation.get texts i with
    | error fault => rfl
    | ok text => exact hsingle text data _
  rw [llamaEmbedBatch, Logged.result_bind, settle_bind, Logged.result_forUpTo,
    settle_forUpTo texts.length htext fun _ => rfl, LlamaEmbedder.llamaEmbedBatch]
  refine congrArg (_ >>= ·) (funext fun s => ?_)
  cases s with
  | threw => rfl
  | returned data =>
    dsimp only
    rw [Logged.result_lift, settle_ofChecked]
    cases l2Normalize sqrt data texts.length ctx.dim with
    | error fault => rfl
    | ok out => rfl

end LlamaTextEmbedding

-- ---------------------------------------------------------------------------
-- Reranking
-- ---------------------------------------------------------------------------

/-- What the creator reads of `lembed_reranker_options_t`. -/
structure LlamaRerankOptions where
  maxLength : Int
  numThreads : Int
  batchSize : Int
  deriving DecidableEq, Repr

/-- `lembed_reranker` -/
structure LlamaReranker where
  session : LlamaSession
  maxLength : Int
  numThreads : Int
  batchSize : Int

namespace LlamaReranker

/-- `resolve` is `lembed_resolve_gguf_path`. The context size does not come from the options. -/
def createFromGgufPath (cpp : LlamaCpp) (resolve : Bytes → Except Status Bytes) (ggufPath : Bytes)
    (options : LlamaRerankOptions) : Except Status LlamaReranker :=
  if ggufPath = [] then .error .invalidArgument
  else
    match resolve ggufPath with
    | .error status => .error status
    | .ok resolvedPath =>
      let maxLength := if 0 < options.maxLength then options.maxLength else 512
      let numThreads := if 0 < options.numThreads then options.numThreads else 4
      let batchSize := if 0 < options.batchSize then options.batchSize else defaultBatchSize
      match LlamaSession.loadFromFile cpp resolvedPath numThreads 512 0 0 with
      | .threw => .error .llama
      | .returned session => .ok
        { session, numThreads, batchSize
          maxLength := if maxLength = 0 then session.maxContext else maxLength }

def llamaClassifyPair (ctx : LlamaReranker) (query document : Bytes) : LlamaCall ℚ :=
  ctx.session.classify (pairText query document)

def llamaRerank (ctx : LlamaReranker) (query : Bytes) (documents : List Bytes) (batchSize : Int) :
    LlamaCall (List ℚ) := do
  let batchSize := if batchSize ≤ 0 then ctx.batchSize else batchSize
  let numBatches ← Logged.lift (ofChecked (batchCount documents.length batchSize))
  Logged.forUpTo numBatches.toNat (fun allScores bi => do
    let range ← Logged.lift (ofChecked (getBatch bi documents.length batchSize))
    let start := range.start.toNat
    (List.range' start (range.stop - range.start).toNat).foldlM (fun allScores i => do
      let document ← Logged.lift (ofChecked (get documents i))
      let score ← ctx.llamaClassifyPair query document
      Logged.lift (ofChecked (writeAt allScores i [score]))) allScores)
    (List.replicate documents.length 0)

end LlamaReranker

/-- A model of one token a byte, trained on two tokens. -/
def bytewiseCpp : LlamaCpp where
  loadModel _ _ := some
    { vocab := ⟨fun text => text.map fun b => (b.toNat : Int), 256⟩
      nEmbd := 1
      nEmbdPos := Nat.one_pos
      nCtxTrain := 2
      encode := fun _ tokens => .ok (0, some [tokens.length])
      decode := fun _ tokens => .ok (0, some (List.replicate (tokens.length * 256) 0)) }
  initContext _ _ _ := true

end LibEmbedding
