import LibEmbedding.Batch
import LibEmbedding.DensePooling
import LibEmbedding.Foundation.Sorting
import LibEmbedding.OnnxSession

/-!
# The dense backends

`text_embedding_onnx_impl.hpp` and `text_embedding_llama_impl.hpp`: each backend fills a
result matrix and streams vectors to a callback, in separate loops. The session is a
parameter of both.
-/

namespace LibEmbedding

open Foundation

/-- `lembed_batch_strategy_t` -/
inductive BatchStrategy where
  | sequential
  | fixed
  | lengthBucket
  deriving DecidableEq, Repr

/-- What the ONNX path reads of its context. `pooledBuf` is what the last call left. -/
structure OnnxEmbedder where
  tokenizer : TokenizerWrapper
  session : OnnxSession ℚ
  outputKey : Bytes
  pooling : Pooling
  batchStrategy : BatchStrategy
  dim : Nat
  pooledBuf : List ℚ
  sqrt : ℚ → ℚ
  sorter : SortImpl

namespace OnnxEmbedder

-- ---------------------------------------------------------------------------
-- One batch
-- ---------------------------------------------------------------------------

/-- Places past the end of a type row keep their zero. -/
def flattenTypes (rows : List (List Int)) (len : Nat) : Checked (List Int) :=
  forUpTo rows.length (fun buf i => do
    rowEnd i len
    let row ← get rows i
    writeAt buf (i * len) (row.take len)) (List.replicate (rows.length * len) 0)

def flatBatch (e : OnnxEmbedder) (batchTexts : List Bytes) : Checked FlatBatch := do
  let enc := e.tokenizer.encodeBatch batchTexts
  let ids ← flatten enc.inputIds enc.seqLength
  let mask ← flatten enc.attentionMask enc.seqLength
  let types ← flattenTypes enc.tokenTypeIds enc.seqLength
  return ⟨ids, mask, types, batchTexts.length, enc.seqLength⟩

def outputIndex (e : OnnxEmbedder) : Int :=
  e.session.selectOutput (if e.outputKey = [] then none else some e.outputKey)

/-- `out_batch`, `out_seq` and `out_dim`. -/
def outputDims (e : OnnxEmbedder) (shape : List Nat) : Checked (Nat × Nat × Nat) := do
  let ndim := shape.length
  let outBatch ← get shape 0
  let outSeq ← if 3 ≤ ndim then get shape 1 else pure 0
  let outDim ← if 3 ≤ ndim then get shape 2 else if ndim = 2 then get shape 1 else pure e.dim
  return (outBatch, outSeq, outDim)

def pool (e : OnnxEmbedder) (data : List ℚ) (mask : List Int) (outBatch outSeq outDim ndim : Nat)
    (pooledBuf : List ℚ) : Checked (List ℚ) :=
  match e.pooling with
  | .cls => poolCls data outBatch outSeq outDim ndim pooledBuf
  | .mean => poolMean data mask outBatch outSeq outDim ndim pooledBuf

/-- Pools and normalises an output into `pooled_buf_`, whose row length is `out_dim`. -/
def poolOutput (e : OnnxEmbedder) (pooledBuf : List ℚ) (batch : FlatBatch) (output : Tensor ℚ) :
    Checked (List ℚ × Nat) := do
  let ndim := output.shape.length
  let (outBatch, outSeq, outDim) ← e.outputDims output.shape
  let pooledBuf := TokenizerWrapper.resize pooledBuf (batch.batch * outDim) 0
  let pooledBuf ← e.pool output.data batch.mask outBatch outSeq outDim ndim pooledBuf
  let pooledBuf ← l2Normalize e.sqrt pooledBuf batch.batch outDim
  return (pooledBuf, outDim)

def pooledBatch (e : OnnxEmbedder) (pooledBuf : List ℚ) (batchTexts : List Bytes) :
    Checked (Outcome (List ℚ × Nat)) := do
  let batch ← e.flatBatch batchTexts
  match e.session.run batch e.outputIndex with
  | .threw => return .threw
  | .returned outputs =>
    let output ← get outputs 0
    let pooled ← e.poolOutput pooledBuf batch output
    return .returned pooled

-- ---------------------------------------------------------------------------
-- `lembed__onnx_embed`
-- ---------------------------------------------------------------------------

/-- `token_counts[a] > token_counts[b]` -/
def longerFirst (tokenCounts : List Nat) (a b : Nat) : Bool :=
  decide (tokenCounts.getD b 0 < tokenCounts.getD a 0)

def embedIndices (e : OnnxEmbedder) (texts : List Bytes) : Checked (List Nat) :=
  if e.batchStrategy = .lengthBucket ∧ 1 < texts.length then
    e.sorter.sort (longerFirst (texts.map fun text => (e.tokenizer.encode text).length))
      (List.range texts.length)
  else .ok (List.range texts.length)

/-- Row `i` of a batch goes to the row of its text. -/
def copyRow (dim : Nat) (indices : List Nat) (start : Nat) (pooledBuf resultData : List ℚ)
    (i : Nat) : Checked (List ℚ) := do
  let origIdx ← get indices (start + i)
  intOffset origIdx dim
  intOffset i dim
  let vec ← readAt pooledBuf (i * dim) dim
  writeAt resultData (origIdx * dim) vec

/-- The texts of positions `start` to `start + bsz` of an order. -/
def batchTexts (texts : List Bytes) (indices : List Nat) (start bsz : Nat) :
    Checked (List Bytes) :=
  (List.range' start bsz).mapM fun i => do
    let idx ← get indices i
    get texts idx

/-- The result matrix and `pooled_buf_`. -/
def embedBatch (e : OnnxEmbedder) (texts : List Bytes) (indices : List Nat) (effectiveBatch : Int)
    (s : Outcome (List ℚ × List ℚ)) (bi : Nat) : Checked (Outcome (List ℚ × List ℚ)) :=
  match s with
  | .threw => .ok .threw
  | .returned (resultData, pooledBuf) => do
    let range ← getBatch bi texts.length effectiveBatch
    let start := range.start.toNat
    let bsz := (range.stop - range.start).toNat
    let batch ← batchTexts texts indices start bsz
    match ← e.pooledBatch pooledBuf batch with
    | .threw => return .threw
    | .returned (pooledBuf, _) =>
      let resultData ← forUpTo bsz (copyRow e.dim indices start pooledBuf) resultData
      return .returned (resultData, pooledBuf)

def onnxEmbed (e : OnnxEmbedder) (texts : List Bytes) (batchSize : Int) (resultData : List ℚ) :
    Checked (Outcome (Status × List ℚ)) := do
  let indices ← e.embedIndices texts
  let effectiveBatch := if e.batchStrategy = .sequential then 1 else batchSize
  let numBatches ← batchCount texts.length effectiveBatch
  match ← forUpTo numBatches.toNat (e.embedBatch texts indices effectiveBatch)
      (.returned (resultData, e.pooledBuf)) with
  | .threw => return .threw
  | .returned (resultData, _) => return .returned (.ok, resultData)

-- ---------------------------------------------------------------------------
-- `lembed__onnx_embed_stream`
-- ---------------------------------------------------------------------------

/-- The vectors the callback has got; an exception ends the stream. -/
structure Stream where
  delivered : List (List ℚ)
  pooledBuf : List ℚ
  threw : Bool

/-- The callback reads `dim` places from the start of row `i`. -/
def deliverRow (dim outDim : Nat) (pooledBuf : List ℚ) (delivered : List (List ℚ)) (i : Nat) :
    Checked (List (List ℚ)) := do
  let vec ← readAt pooledBuf (i * outDim) dim
  return delivered ++ [vec]

def streamBatch (e : OnnxEmbedder) (texts : List Bytes) (batchSize : Int) (s : Stream) (bi : Nat) :
    Checked Stream :=
  if s.threw then .ok s
  else do
    let range ← getBatch bi texts.length batchSize
    let start := range.start.toNat
    let bsz := (range.stop - range.start).toNat
    let batch ← (List.range' start bsz).mapM (get texts)
    match ← e.pooledBatch s.pooledBuf batch with
    | .threw => return { s with threw := true }
    | .returned (pooledBuf, outDim) =>
      let delivered ← forUpTo bsz (deliverRow e.dim outDim pooledBuf) s.delivered
      return ⟨delivered, pooledBuf, false⟩

def onnxEmbedStream (e : OnnxEmbedder) (texts : List Bytes) (batchSize : Int) : Checked Stream := do
  let numBatches ← batchCount texts.length batchSize
  forUpTo numBatches.toNat (e.streamBatch texts batchSize) ⟨[], e.pooledBuf, false⟩

end OnnxEmbedder

-- ---------------------------------------------------------------------------
-- llama.cpp
-- ---------------------------------------------------------------------------

/-- `LEMBED_MAX_DIM` -/
def maxDim : Nat := 4096

/-- What the llama.cpp path reads of its context. -/
structure LlamaEmbedder where
  session : Bytes → Outcome (List ℚ)
  dim : Nat
  sqrt : ℚ → ℚ

namespace LlamaEmbedder

/-- Copies the embedding of `text` to `outData + off`. -/
def embedSingle (e : LlamaEmbedder) (text : Bytes) (outData : List ℚ) (off : Nat) :
    Checked (Outcome (List ℚ)) :=
  match e.session text with
  | .threw => .ok .threw
  | .returned emb => do
    let emb ← readAt emb 0 e.dim
    let outData ← writeAt outData off emb
    return .returned outData

def embedText (e : LlamaEmbedder) (texts : List Bytes) (s : Outcome (List ℚ)) (i : Nat) :
    Checked (Outcome (List ℚ)) :=
  match s with
  | .threw => .ok .threw
  | .returned resultData => do
    let text ← get texts i
    e.embedSingle text resultData (i * e.dim)

def llamaEmbedBatch (e : LlamaEmbedder) (texts : List Bytes) (resultData : List ℚ) :
    Checked (Outcome (List ℚ)) := do
  match ← forUpTo texts.length (e.embedText texts) (.returned resultData) with
  | .threw => return .threw
  | .returned resultData =>
    let resultData ← l2Normalize e.sqrt resultData texts.length e.dim
    return .returned resultData

/-- The vectors delivered before an exception, or all of them. -/
structure Stream where
  delivered : List (List ℚ)
  threw : Bool

/-- `float emb[LEMBED_MAX_DIM]` lives for one iteration. -/
def streamText (e : LlamaEmbedder) (texts : List Bytes) (s : Stream) (i : Nat) : Checked Stream :=
  if s.threw then .ok s
  else do
    let text ← get texts i
    match ← e.embedSingle text (malloc maxDim) 0 with
    | .threw => return { s with threw := true }
    | .returned emb =>
      let emb ← l2Normalize e.sqrt emb 1 e.dim
      let vec ← readAt emb 0 e.dim
      return { s with delivered := s.delivered ++ [vec] }

def llamaEmbedStream (e : LlamaEmbedder) (texts : List Bytes) : Checked Stream :=
  forUpTo texts.length (e.streamText texts) ⟨[], false⟩

end LlamaEmbedder

end LibEmbedding
