import LibEmbedding.Batch
import LibEmbedding.Foundation.Buffer
import LibEmbedding.LruCacheRefines

/-!
# Dense embedding

`lembed_text_embedding_embed` of `text_embedding_impl.hpp` over the two
backends it dispatches to. With a cache it embeds the misses only, as a
compacted list, and scatters their rows back by the saved positions.
-/

namespace LibEmbedding

open Foundation

/-- The two branches of `embed_subset`. Each fills the buffer it is given. -/
structure Backend (α : Type) where
  onnxEmbed : List Bytes → Int → List α → Checked (Outcome (Status × List α))
  llamaEmbedBatch : List Bytes → List α → Checked (Outcome (List α))

/-- `lembed_text_embedding`. Every creator replaces a nonpositive batch size by
the default one. -/
structure TextEmbedding (α : Type) where
  backendType : BackendType
  dim : Nat
  batchSize : Int
  batchSizePos : 0 < batchSize
  textsEmbedded : Nat
  batchesRun : Nat
  cacheHits : Nat
  cacheMisses : Nat
  statsCalls : Nat
  cache : Option (LRUCache Bytes α)

/-- `lembed_embeddings_t` -/
structure Embeddings (α : Type) where
  data : Option (List α)
  numEmbeddings : Nat
  dim : Nat
  deriving DecidableEq, Repr

/-- The status of a call and the result struct, when the call wrote it. -/
structure EmbedReply (α : Type) where
  status : Status
  result : Option (Embeddings α)
  deriving DecidableEq, Repr

/-- One call: its arguments, the time it runs at and the model behind it. -/
structure EmbedCall (α : Type) where
  texts : List Bytes
  batchSize : Int
  now : Int
  backend : Backend α

namespace TextEmbedding

variable {α : Type} [Inhabited α]

/-- The part of the creators that sets what `embed` reads. -/
def create (backendType : BackendType) (dim : Nat) (batchSize : Int) (cacheSize : Int) :
    TextEmbedding α where
  backendType
  dim
  batchSize := if 0 < batchSize then batchSize else defaultBatchSize
  batchSizePos := createdBatchSize_pos batchSize
  textsEmbedded := 0
  batchesRun := 0
  cacheHits := 0
  cacheMisses := 0
  statsCalls := 0
  cache := if 0 < cacheSize then some (.new cacheSize.toNat 0) else none

def embedSubset (ctx : TextEmbedding α) (backend : Backend α) (subset : List Bytes)
    (batchSize : Int) (out : List α) : Checked (Outcome (Status × List α)) :=
  match ctx.backendType with
  | .llamacpp => do
    match ← backend.llamaEmbedBatch subset out with
    | .returned out => return .returned (.ok, out)
    | .threw => return .threw
  | .onnx => backend.onnxEmbed subset batchSize out

/-- The status a caught exception is reported as. -/
def exceptionStatus (ctx : TextEmbedding α) : Status :=
  match ctx.backendType with
  | .llamacpp => .llama
  | .onnx => .onnxRuntime

/-- How much `batches_run` grows after `ran` texts went through the backend. -/
def batchesFor (ctx : TextEmbedding α) (ran : Nat) (batchSize : Int) : Checked Nat :=
  match ctx.backendType with
  | .llamacpp => .ok (if ran = 0 then 0 else 1)
  | .onnx => do
    let count ← batchCount ran batchSize
    return count.toNat

def finish (ctx : TextEmbedding α) (n ran : Nat) (batchSize : Int) (data : List α) :
    Checked (EmbedReply α × TextEmbedding α) := do
  let count ← ctx.batchesFor ran batchSize
  let ctx := { ctx with textsEmbedded := ctx.textsEmbedded + n
                        batchesRun := ctx.batchesRun + count
                        statsCalls := ctx.statsCalls + 1 }
  return (⟨.ok, some ⟨some data, n, ctx.dim⟩⟩, ctx)

/-- The state of the loop that splits the texts into hits and misses. -/
structure Split (α : Type) where
  data : List α
  cache : LRUCache Bytes α
  missTexts : List Bytes
  missIndices : List Nat
  cacheHits : Nat
  cacheMisses : Nat

def lookupText (now : Int) (texts : List Bytes) (dim : Nat) (s : Split α) (i : Nat) :
    Checked (Split α) := do
  let text ← get texts i
  let (hitVec, cache) ← s.cache.getCopyVec now text
  match hitVec.filter (·.length = dim) with
  | some hitVec =>
    let data ← writeAt s.data (i * dim) hitVec
    return { s with data, cache, cacheHits := s.cacheHits + 1 }
  | none =>
    return { s with cache
                    missTexts := s.missTexts ++ [text]
                    missIndices := s.missIndices ++ [i]
                    cacheMisses := s.cacheMisses + 1 }

/-- Row `k` of the embedded misses goes to its text's row and into the cache. -/
def scatterMiss (now : Int) (texts : List Bytes) (dim : Nat) (missBuf : List α)
    (missIndices : List Nat) (s : List α × LRUCache Bytes α) (k : Nat) :
    Checked (List α × LRUCache Bytes α) := do
  let i ← get missIndices k
  let vec ← readAt missBuf (k * dim) dim
  let data ← writeAt s.1 (i * dim) vec
  let text ← get texts i
  let cache ← s.2.put now text vec
  return (data, cache)

def embedThrough (ctx : TextEmbedding α) (cache : LRUCache Bytes α) (call : EmbedCall α)
    (batchSize : Int) (data : List α) : Checked (EmbedReply α × TextEmbedding α) := do
  let n := call.texts.length
  let split ← forUpTo n (lookupText call.now call.texts ctx.dim)
    ⟨data, cache, [], [], ctx.cacheHits, ctx.cacheMisses⟩
  let ctx := { ctx with cache := some split.cache
                        cacheHits := split.cacheHits
                        cacheMisses := split.cacheMisses }
  if split.missTexts = [] then ctx.finish n 0 batchSize split.data
  else
    let missBuf := malloc (split.missTexts.length * ctx.dim)
    match ← ctx.embedSubset call.backend split.missTexts batchSize missBuf with
    | .threw => return (⟨ctx.exceptionStatus, some ⟨none, n, ctx.dim⟩⟩, ctx)
    | .returned (status, missBuf) =>
      if status = .ok then
        let (data, cache) ← forUpTo split.missIndices.length
          (scatterMiss call.now call.texts ctx.dim missBuf split.missIndices)
          (split.data, split.cache)
        { ctx with cache := some cache }.finish n split.missTexts.length batchSize data
      else return (⟨status, some ⟨some split.data, n, ctx.dim⟩⟩, ctx)

def embedAll (ctx : TextEmbedding α) (call : EmbedCall α) (batchSize : Int) (data : List α) :
    Checked (EmbedReply α × TextEmbedding α) := do
  let n := call.texts.length
  match ← ctx.embedSubset call.backend call.texts batchSize data with
  | .threw => return (⟨ctx.exceptionStatus, some ⟨none, n, ctx.dim⟩⟩, ctx)
  | .returned (status, data) =>
    if status = .ok then ctx.finish n n batchSize data
    else return (⟨status, some ⟨some data, n, ctx.dim⟩⟩, ctx)

def embed (ctx : TextEmbedding α) (call : EmbedCall α) :
    Checked (EmbedReply α × TextEmbedding α) :=
  if call.texts.length = 0 then .ok (⟨.invalidArgument, none⟩, ctx)
  else
    let batchSize := if call.batchSize ≤ 0 then ctx.batchSize else call.batchSize
    let data := malloc (call.texts.length * ctx.dim)
    match ctx.cache with
    | some cache => ctx.embedThrough cache call batchSize data
    | none => ctx.embedAll call batchSize data

/-- A history of calls on one context. -/
def run : List (EmbedCall α) → TextEmbedding α → Checked (List (EmbedReply α) × TextEmbedding α)
  | [], ctx => .ok ([], ctx)
  | call :: calls, ctx => do
    let (reply, ctx) ← ctx.embed call
    let (replies, ctx) ← run calls ctx
    return (reply :: replies, ctx)

end TextEmbedding

end LibEmbedding
