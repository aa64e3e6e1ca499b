import LibEmbedding.TextEmbedding

/-!
# The embedding pool

`EmbeddingPool` of `embedding_pool.hpp`: the texts are split over the workers, and each
worker embeds its part in chunks over a context of its own.
-/

namespace LibEmbedding

open Foundation

/-- `EmbeddingPool::Worker` -/
structure PoolWorker (α : Type) where
  ctx : TextEmbedding α
  batchSize : Int
  batchSizePos : 0 < batchSize

/-- The constructor makes at least one worker. -/
structure EmbeddingPool (α : Type) where
  workers : List (PoolWorker α)
  nonempty : workers ≠ []
  countFits : (workers.length : Int) ≤ intMax

/-- What a chunk meets: the time, and a backend that may fail. -/
structure ChunkEnv (α : Type) where
  now : Int
  backend : Backend α

/-- The state of a worker's loop. `chunks` counts the rounds. -/
structure Subset (α : Type) where
  chunks : Nat
  result : List (List α)
  ctx : TextEmbedding α

variable {α : Type} [Inhabited α]

-- ---------------------------------------------------------------------------
-- A worker
-- ---------------------------------------------------------------------------

/-- The vectors of a reply. A struct the call has not written is all zeros. -/
def EmbedReply.rows (reply : EmbedReply α) : Checked (List (List α)) :=
  match reply.result with
  | none => .ok []
  | some r => (List.range r.numEmbeddings).mapM fun k => readAt (r.data.getD []) (k * r.dim) r.dim

/-- `for (int i = start; i < stop; i += bs)`, each round with its chunk's start and size.
`fuel` bounds the rounds. -/
def chunkLoop (body : σ → Int → Int → Checked σ) (stop bs : Int) :
    Nat → Int → σ → Checked σ
  | 0, _, s => .ok s
  | fuel + 1, i, s =>
    if i < stop then do
      let s ← body s i (min bs (stop - i))
      let i ← addInt i bs
      chunkLoop body stop bs fuel i s
    else .ok s

/-- A chunk whose call fails adds nothing. -/
def embedChunk (env : Nat → ChunkEnv α) (texts : List Bytes) (s : Subset α) (i n : Int) :
    Checked (Subset α) := do
  let chunk ← (List.range n.toNat).mapM fun j => get texts (i.toNat + j)
  let at_ := env s.chunks
  let (reply, ctx) ← s.ctx.embed ⟨chunk.map cstr, n, at_.now, at_.backend⟩
  let rows ← if reply.status = .ok then reply.rows else .ok []
  return ⟨s.chunks + 1, s.result ++ rows, ctx⟩

def PoolWorker.embedSubset (worker : PoolWorker α) (env : Nat → ChunkEnv α)
    (texts : List Bytes) (start stop bs : Int) : Checked (List (List α) × PoolWorker α) := do
  let s ← chunkLoop (embedChunk env texts) stop bs (stop - start).toNat start
    ⟨0, [], worker.ctx⟩
  return (s.result, { worker with ctx := s.ctx })

-- ---------------------------------------------------------------------------
-- The pool
-- ---------------------------------------------------------------------------

/-- How many texts each worker gets. -/
def perWorker (total numWorkers : Int) : Checked Int := do
  let sum ← addInt total numWorkers
  let sum ← subInt sum 1
  divInt sum numWorkers

/-- The part of worker `w`. -/
def partBounds (total per : Int) (w : Nat) : Checked BatchRange := do
  let start ← mulInt w per
  let stop ← addInt start per
  return ⟨start, min stop total⟩

namespace EmbeddingPool

/-- The batch size a call runs with. -/
def batchSizeOf (p : EmbeddingPool α) (batchSize : Int) : Int :=
  if batchSize ≤ 0 then (p.workers.head p.nonempty).batchSize else batchSize

/-- The futures in the order they were launched. A task touches its own worker only, so
when it runs makes no difference. -/
def embedParts (env : Nat → Nat → ChunkEnv α) (texts : List Bytes) (total per bs : Int) :
    List (PoolWorker α) → Nat → Checked (List (List α) × List (PoolWorker α))
  | [], _ => .ok ([], [])
  | worker :: workers, w => do
    let part ← partBounds total per w
    if part.stop ≤ part.start then return ([], worker :: workers)
    else
      let (rows, worker) ← worker.embedSubset (env w) texts part.start part.stop bs
      let (rest, workers) ← embedParts env texts total per bs workers (w + 1)
      return (rows ++ rest, worker :: workers)

/-- The vectors, and the workers as the call leaves them. -/
def embed (p : EmbeddingPool α) (env : Nat → Nat → ChunkEnv α) (texts : List Bytes)
    (batchSize : Int) : Checked (List (List α) × List (PoolWorker α)) :=
  if texts = [] then .ok ([], p.workers)
  else do
    let total := toInt32 texts.length
    let per ← perWorker total p.workers.length
    embedParts env texts total per (p.batchSizeOf batchSize) p.workers 0

end EmbeddingPool

end LibEmbedding
