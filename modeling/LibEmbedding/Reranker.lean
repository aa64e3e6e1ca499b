import LibEmbedding.Batch
import LibEmbedding.Foundation.Sorting
import LibEmbedding.LruCacheRefines
import LibEmbedding.OnnxSession

/-!
# Reranking

`lembed_reranker_rerank` of `reranker_impl.hpp`: scores a query against each
document, the ones without a cached score in batches, and sorts by score. Scores
are the numbers the floats stand for, buffer sizes are naturals.
-/

namespace LibEmbedding

open Foundation

/-- What the context was created with; `llamaRerank` is the other backend. -/
structure RerankModel where
  backendType : BackendType
  tokenizer : TokenizerWrapper
  session : OnnxSession ℚ
  llamaRerank : Bytes → List Bytes → Int → Checked (Outcome (List ℚ))
  sorter : SortImpl

/-- `lembed_reranker`. Every creator replaces a nonpositive batch size by the
default one. -/
structure Reranker where
  batchSize : Int
  batchSizePos : 0 < batchSize
  textsEmbedded : Nat
  batchesRun : Nat
  cacheHits : Nat
  cacheMisses : Nat
  statsCalls : Nat
  cache : Option (LRUCache Bytes ℚ)

structure RerankResult where
  index : Nat
  score : ℚ
  deriving DecidableEq, Repr

/-- The status of a call and the sorted results, when the call wrote them. -/
structure RerankReply where
  status : Status
  items : Option (List RerankResult)
  deriving DecidableEq, Repr

structure RerankCall where
  query : Bytes
  documents : List Bytes
  batchSize : Int
  now : Int
  deriving DecidableEq, Repr

/-- The key a score is cached under. -/
def rerankKey (query document : Bytes) : Bytes := query ++ [10] ++ document

/-- The text the model scores. -/
def pairText (query document : Bytes) : Bytes := query ++ ascii " [SEP] " ++ document

namespace Reranker

def create (batchSize cacheSize : Int) : Reranker where
  batchSize := if 0 < batchSize then batchSize else defaultBatchSize
  batchSizePos := createdBatchSize_pos batchSize
  textsEmbedded := 0
  batchesRun := 0
  cacheHits := 0
  cacheMisses := 0
  statsCalls := 0
  cache := if 0 < cacheSize then some (.new cacheSize.toNat 0) else none

/-- The inputs of a run over a batch of pair texts; type ids stay zero. -/
def pairBatch (tokenizer : TokenizerWrapper) (pairs : List Bytes) : FlatBatch :=
  let enc := tokenizer.encodeBatch pairs
  { ids := enc.inputIds.flatMap id
    mask := enc.attentionMask.flatMap id
    types := List.replicate (pairs.length * enc.seqLength) 0
    batch := pairs.length
    seqLength := enc.seqLength }

-- ---------------------------------------------------------------------------
-- Cached scores
-- ---------------------------------------------------------------------------

/-- The state of the loop that looks every document up. -/
structure Split where
  allScores : List ℚ
  missIndices : List Nat
  cache : LRUCache Bytes ℚ
  cacheHits : Nat
  cacheMisses : Nat

/-- A cached value counts as a score when it has one element. -/
def usable : List ℚ → Option ℚ
  | [score] => some score
  | _ => none

def lookupDocument (call : RerankCall) (s : Split) (i : Nat) : Checked Split := do
  let document ← get call.documents i
  let (cached, cache) ← s.cache.getCopyVec call.now (rerankKey call.query document)
  match cached.bind usable with
  | some score =>
    let allScores ← writeAt s.allScores i [score]
    return { s with allScores, cache, cacheHits := s.cacheHits + 1 }
  | none =>
    return { s with cache, missIndices := s.missIndices ++ [i], cacheMisses := s.cacheMisses + 1 }

-- ---------------------------------------------------------------------------
-- Scoring the misses
-- ---------------------------------------------------------------------------

/-- The state of the loops over the batches. An exception leaves the iterations
after it out. -/
structure Scoring where
  allScores : List ℚ
  cache : Option (LRUCache Bytes ℚ)
  threw : Bool

/-- Row `docIdx` gets its score, and so does the cache. -/
def storeScore (call : RerankCall) (s : Scoring) (docIdx : Nat) (score : ℚ) : Checked Scoring := do
  let allScores ← writeAt s.allScores docIdx [score]
  match s.cache with
  | none => return { s with allScores }
  | some cache =>
    let document ← get call.documents docIdx
    let cache ← cache.put call.now (rerankKey call.query document) [score]
    return { s with allScores, cache := some cache }

def storeRow (call : RerankCall) (missIndices : List Nat) (start : Nat) (output : Tensor ℚ)
    (s : Scoring) (i : Nat) : Checked Scoring := do
  let docIdx ← get missIndices (start + i)
  match output.shape.getLast? with
  | none => .error .outOfBounds
  | some back =>
    let score ← get output.data (i * back)
    storeScore call s docIdx score

/-- The document of miss `i` in the form the batch holds it. -/
def missText (call : RerankCall) (missIndices : List Nat) (i : Nat) : Checked Bytes := do
  let docIdx ← get missIndices i
  let document ← get call.documents docIdx
  return pairText call.query document

def scoreBatch (m : RerankModel) (call : RerankCall) (missIndices : List Nat) (batchSize : Int)
    (s : Scoring) (bi : Nat) : Checked Scoring :=
  if s.threw then .ok s
  else do
    let range ← getBatch bi missIndices.length batchSize
    let start := range.start.toNat
    let bsz := (range.stop - range.start).toNat
    let pairs ← (List.range' start bsz).mapM (missText call missIndices)
    match m.session.run (pairBatch m.tokenizer pairs) (-1) with
    | .threw => return { s with threw := true }
    | .returned outputs =>
      let output ← get outputs 0
      forUpTo bsz (storeRow call missIndices start output) s

def scoreOnnx (m : RerankModel) (call : RerankCall) (missIndices : List Nat) (batchSize : Int)
    (s : Scoring) : Checked Scoring := do
  let numBatches ← batchCount missIndices.length batchSize
  forUpTo numBatches.toNat (scoreBatch m call missIndices batchSize) s

def scoreLlama (m : RerankModel) (call : RerankCall) (missIndices : List Nat) (batchSize : Int)
    (s : Scoring) : Checked Scoring := do
  let missDocs ← missIndices.mapM (get call.documents)
  match ← m.llamaRerank call.query missDocs batchSize with
  | .threw => return { s with threw := true }
  | .returned missScores =>
    forUpTo missIndices.length (fun s i => do
      let docIdx ← get missIndices i
      let score ← get missScores i
      storeScore call s docIdx score) s

def scoreMisses (m : RerankModel) (call : RerankCall) (missIndices : List Nat) (batchSize : Int)
    (s : Scoring) : Checked Scoring :=
  if missIndices = [] then .ok s
  else
    match m.backendType with
    | .llamacpp => scoreLlama m call missIndices batchSize s
    | .onnx => scoreOnnx m call missIndices batchSize s

-- ---------------------------------------------------------------------------
-- A call
-- ---------------------------------------------------------------------------

/-- `a.score > b.score` -/
def ranksBefore (a b : RerankResult) : Bool := decide (b.score < a.score)

/-- Splits the documents: without a cache all of them are misses. -/
def splitDocuments (ctx : Reranker) (call : RerankCall) :
    Checked (List ℚ × List Nat × Reranker) := do
  let n := call.documents.length
  let allScores := List.replicate n 0
  match ctx.cache with
  | none =>
    return (allScores, List.range n, { ctx with cacheMisses := ctx.cacheMisses + n })
  | some cache =>
    let s ← forUpTo n (lookupDocument call) ⟨allScores, [], cache, ctx.cacheHits, ctx.cacheMisses⟩
    return (s.allScores, s.missIndices, { ctx with cache := some s.cache
                                                   cacheHits := s.cacheHits
                                                   cacheMisses := s.cacheMisses })

def rerank (m : RerankModel) (call : RerankCall) (ctx : Reranker) :
    Checked (RerankReply × Reranker) := do
  let n := call.documents.length
  if n = 0 then return (⟨.invalidArgument, none⟩, ctx)
  let batchSize := if call.batchSize ≤ 0 then ctx.batchSize else call.batchSize
  let (allScores, missIndices, ctx) ← ctx.splitDocuments call
  let s ← scoreMisses m call missIndices batchSize ⟨allScores, ctx.cache, false⟩
  let ctx := { ctx with cache := s.cache }
  if s.threw then return (⟨.onnxRuntime, none⟩, ctx)
  let items ← m.sorter.sort ranksBefore (s.allScores.zipIdx.map fun e => ⟨e.2, e.1⟩)
  let count ← batchCount n batchSize
  return (⟨.ok, some items⟩, { ctx with textsEmbedded := ctx.textsEmbedded + n
                                        batchesRun := ctx.batchesRun + count.toNat
                                        statsCalls := ctx.statsCalls + 1 })

/-- A history of calls on one context. -/
def run (m : RerankModel) : List RerankCall → Reranker → Checked (List RerankReply × Reranker)
  | [], ctx => .ok ([], ctx)
  | call :: calls, ctx => do
    let (reply, ctx) ← ctx.rerank m call
    let (replies, ctx) ← run m calls ctx
    return (reply :: replies, ctx)

end Reranker

end LibEmbedding
