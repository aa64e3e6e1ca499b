import LibEmbedding.GgufEmbed
import LibEmbedding.SparseResults

/-!
# The sparse calls

`lembed_sparse_text_embedding_embed` on both backends: the ONNX loop of
`sparse_text_embedding.h` and `lembed_sparse_text_embedding_embed_gguf` of
`sparse_text_embedding_gguf_impl.hpp`, over the memory of the caller.
-/

namespace LibEmbedding

open Foundation Program CallState

variable {α : Type} [Field α] [LinearOrder α]

/-- What a call reads of its context. -/
structure SparseEmbedding (α : Type) where
  tokenizer : TokenizerWrapper
  session : OnnxSession α
  gguf : Option SparseSession
  batchSize : Int
  options : SparseOptions α

/-- The arguments of a call: `texts` is null, or an array of pointers to `numTexts` texts. -/
structure SparseCall (α : Type) where
  texts : Option (Nat → Option Bytes)
  numTexts : Int
  batchSize : Int
  sparseOpts : Option (SparseOptions α)

namespace SparseEmbedding

/-- `calloc` of the items, into the struct of the caller. -/
def allocItems (env : SparseEnv) (n : Nat) : Program (CallState α) Bool := do
  let items ← alloc env.calloc (.items (List.replicate n emptyItem))
  modify fun s => { s with result := { s.result with items } }
  return items.isSome

def setCount (count : Int) : Program (CallState α) Unit :=
  modify fun s => { s with result := { s.result with count } }

/-- Prunes a pooled vector and stores it. -/
def storePruned (env : SparseEnv) (sorter : SortImpl) (options : SparseOptions α)
    (results : List (SparseResult α)) (outOffset i : Nat) : Program (CallState α) Unit := do
  let sr ← compute (get results i)
  throwIf (env.throws (.prune (outOffset + i)))
  let sr ← compute (sparsePruneAndSort sorter options sr)
  sparseResultStore env (outOffset + i) sr

-- ---------------------------------------------------------------------------
-- ONNX
-- ---------------------------------------------------------------------------

/-- One batch. A `std::string` of a null pointer throws. -/
def onnxBatch (ctx : SparseEmbedding α) (env : SparseEnv) (fns : MathFns α) (sorter : SortImpl)
    (options : SparseOptions α) (texts : Nat → Option Bytes) (numTexts batchSize : Int)
    (outOffset bi : Nat) : Program (CallState α) Nat := do
  let range ← compute (getBatch bi numTexts batchSize)
  let bsz := (range.stop - range.start).toNat
  let batchTexts := (List.range bsz).map fun i => texts (range.start.toNat + i)
  throwIf (env.throws (.batch bi) || batchTexts.any Option.isNone)
  let enc := ctx.tokenizer.encodeBatch (batchTexts.map fun text => text.getD [])
  let idsFlat ← compute (flatten enc.inputIds enc.seqLength)
  let maskFlat ← compute (flatten enc.attentionMask enc.seqLength)
  let typeFlat := List.replicate (bsz * enc.seqLength) 0
  match ctx.session.run ⟨idsFlat, maskFlat, typeFlat, bsz, enc.seqLength⟩ (-1) with
  | .threw => stop .threw
  | .returned outputs =>
    let output ← compute (get outputs 0)
    let vocabSize ← compute
      (if 3 ≤ output.shape.length then get output.shape 2 else get output.shape 1)
    let sparseResults ← compute
      (spladePostprocess fns.activation output.data (some maskFlat) bsz enc.seqLength vocabSize)
    forUpTo bsz (fun _ i => storePruned env sorter options sparseResults outOffset i) ()
    return outOffset + bsz

/-- The call behind the checks of its arguments. -/
def embedOnnx (ctx : SparseEmbedding α) (env : SparseEnv) (fns : MathFns α) (sorter : SortImpl)
    (options : SparseOptions α) (texts : Nat → Option Bytes) (numTexts batchSize : Int) :
    Program (CallState α) Status :=
  tryCatch
    (do
      setCount numTexts
      let there ← allocItems env numTexts.toNat
      if !there then return .outOfMemory
      let numBatches ← compute (batchCount numTexts batchSize)
      let _ ← forUpTo numBatches.toNat
        (ctx.onnxBatch env fns sorter options texts numTexts batchSize) 0
      return .ok)
    (do
      sparseEmbeddingsFree
      return .onnxRuntime)

-- ---------------------------------------------------------------------------
-- GGUF
-- ---------------------------------------------------------------------------

/-- `lembed_sparse_text_embedding_embed_gguf`. A null text is an empty one. `graphs` are the
resources that the batches get. -/
def embedGguf (session : SparseSession) (env : SparseEnv) (graphs : Nat → GraphEnv)
    (fns : MathFns α) (sorter : SortImpl) (options : SparseOptions α)
    (texts : Nat → Option Bytes) (numTexts batchSize : Int) : Program (CallState α) Status :=
  tryCatch
    (do
      throwIf (env.throws .texts)
      let batchTexts := (List.range numTexts.toNat).map fun i => (texts i).getD []
      throwIf (env.throws .embed)
      let sparse ← compute ((session.embedEach fns graphs batchTexts batchSize).map Prod.fst)
      setCount 0
      let there ← allocItems env numTexts.toNat
      if !there then return .outOfMemory
      let _ ← compute (batchCount numTexts batchSize)
      let outOffset := min sparse.length numTexts.toNat
      forUpTo outOffset (fun _ b => storePruned env sorter options sparse 0 b) ()
      setCount outOffset
      return .ok)
    (do
      sparseEmbeddingsFree
      return .gguf)

/-- `lembed_sparse_text_embedding_embed` -/
def embed (ctx : SparseEmbedding α) (env : SparseEnv) (graphs : Nat → GraphEnv)
    (fns : MathFns α) (sorter : SortImpl) (call : SparseCall α) : Program (CallState α) Status :=
  match call.texts with
  | none => pure .invalidArgument
  | some texts =>
    if call.numTexts ≤ 0 then pure .invalidArgument
    else
      let batchSize := if call.batchSize ≤ 0 then ctx.batchSize else call.batchSize
      let options := call.sparseOpts.getD ctx.options
      match ctx.gguf with
      | some session =>
        embedGguf session env graphs fns sorter options texts call.numTexts batchSize
      | none => ctx.embedOnnx env fns sorter options texts call.numTexts batchSize

end SparseEmbedding

end LibEmbedding
