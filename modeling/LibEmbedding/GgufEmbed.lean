import LibEmbedding.Batch
import LibEmbedding.GgufEncoder
import LibEmbedding.GgufLoad
import LibEmbedding.SparseBackends

/-!
# Embedding with a sparse session

`run_graph`, `embed_batch` and `embed` of `gguf_sparse_session.hpp`. A graph is kept for
the next batch of its shape; it refers to the tensors of the weights it was built over.
-/

namespace LibEmbedding

open Foundation

/-- Which resources a call gets: those of a graph to build, and those of a computation. -/
structure GraphEnv where
  build : Bool
  compute : Bool

def GraphEnv.ample : GraphEnv := ⟨true, true⟩

/-- The positions of a batch, counted from the start of each document. -/
def batchPositions (batch seqLen : Nat) : List Int :=
  (List.range batch).flatMap fun _ => (List.range seqLen).map Int.ofNat

namespace SparseSession

variable {α : Type} [Field α] [LinearOrder α] (fns : MathFns α)

/-- The graph a batch runs on: the one that is kept, when it has the shape. -/
def graphFor (s : SparseSession) (env : GraphEnv) (w : Weights) (seqLen batch : Nat) :
    Option CachedGraph :=
  match s.graph.filter fun g => g.seqLen = seqLen ∧ g.batch = batch with
  | some g => some g
  | none => if env.build then some ⟨w, s.generation, seqLen, batch⟩ else none

/-- The logits of a batch as one buffer, `none` on a failure of the resources. -/
def runGraph (s : SparseSession) (env : GraphEnv) (w : Weights)
    (tokens positions valid : List Int) (seqLen batch : Nat) :
    Checked (Option (List α) × SparseSession) :=
  match s.graphFor env w seqLen batch with
  | none => .ok (none, { s with graph := none })
  | some g => do
    let s := { s with graph := some g }
    -- the tensors of weights that were replaced have been freed
    ensure (g.generation = s.generation) .dangling
    if env.compute then
      let logits ← buildLogits fns g.weights tokens positions (buildMask valid seqLen batch)
        seqLen batch
      let nValues := s.vocabSize.toNat * seqLen * batch
      ensure (nValues ≤ logits.numel) .assertFailed
      return (some ((List.range nValues).map logits.flat), s)
    else return (none, s)

/-- One flat row of tokens, document after document. -/
def embedBatch (s : SparseSession) (env : GraphEnv) (w : Weights) (texts : List Bytes) :
    Checked (List (SparseResult α) × SparseSession) := do
  let batch := texts.length
  let enc := s.tok.encodeBatch texts
  let seqLen := enc.seqLength
  if seqLen = 0 then return (List.replicate batch [], s)
  let _ ← mulInt batch seqLen
  let tokens := enc.inputIds.flatMap id
  let positions := batchPositions batch seqLen
  let valid := enc.attentionMask.flatMap id
  let (logits, s) ← s.runGraph fns env w tokens positions valid seqLen batch
  match logits with
  | none => return (List.replicate batch [], s)
  | some logits =>
    let results ← ggufPool fns.activation s.specialIds logits valid batch seqLen s.vocabSize.toNat
    return (results, s)

/-- One round of the loop over the batches. -/
def embedStep (env : GraphEnv) (w : Weights) (batchSize : Nat) (texts : List Bytes)
    (state : List (SparseResult α) × SparseSession) (k : Nat) :
    Checked (List (SparseResult α) × SparseSession) := do
  let (results, s) ← state.2.embedBatch fns env w (slice batchSize texts k)
  return (state.1 ++ results, s)

def batchOf (batchSize : Int) : Nat := if batchSize ≤ 0 then 1 else batchSize.toNat

/-- The results in order, one for each text. A session without a model gives none. -/
def embed (s : SparseSession) (env : GraphEnv) (texts : List Bytes) (batchSize : Int) :
    Checked (List (SparseResult α) × SparseSession) :=
  match s.weights with
  | none => .ok ([], s)
  | some w =>
    forUpTo (sliceCount (batchOf batchSize) texts.length)
      (embedStep fns env w (batchOf batchSize) texts) ([], s)

/-- A call whose batches each get their own resources. -/
def embedEach (s : SparseSession) (envs : Nat → GraphEnv) (texts : List Bytes) (batchSize : Int) :
    Checked (List (SparseResult α) × SparseSession) :=
  match s.weights with
  | none => .ok ([], s)
  | some w =>
    forUpTo (sliceCount (batchOf batchSize) texts.length)
      (fun state k => embedStep fns (envs k) w (batchOf batchSize) texts state k) ([], s)

theorem embedEach_const (s : SparseSession) (env : GraphEnv) (texts : List Bytes)
    (batchSize : Int) : s.embedEach fns (fun _ => env) texts batchSize =
      s.embed fns env texts batchSize := rfl

end SparseSession

end LibEmbedding
