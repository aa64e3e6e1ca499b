import LibEmbedding.Batch
import LibEmbedding.Foundation.Buffer
import LibEmbedding.Foundation.Logged
import LibEmbedding.Foundation.Sorting

/-!
# The llama.cpp sessions

`LlamaSession` of `llama_session_impl.hpp` and the data that the calls of `LlamaSessionPool`
read, over a llama.cpp whose tokenizer and graphs are parameters. A call leaves a log, with the
number of tokens of every `llama_encode` and `llama_decode` it makes. Both clear the memory of
their context first, so what they return depends on the tokens only.
-/

namespace LibEmbedding

open Foundation

/-- Why a call ends early: undefined behaviour or an abort, or a C++ exception. -/
inductive Stop where
  | fault (fault : Fault)
  | threw
  deriving DecidableEq, Repr

/-- A checked step of a call that may throw. -/
def ofChecked : Checked α → Except Stop α
  | .ok a => .ok a
  | .error fault => .error (.fault fault)

theorem ofChecked_ok {x : Checked α} : ofChecked x = .ok a ↔ x = .ok a := by
  cases x with
  | ok b => simp [ofChecked]
  | error fault => simp [ofChecked]

/-- What a call comes to for its caller. -/
def settle : Except Stop α → Checked (Outcome α)
  | .ok a => .ok (.returned a)
  | .error .threw => .ok .threw
  | .error (.fault fault) => .error fault

theorem settle_bind (x : Except Stop α) (f : α → Except Stop β) :
    settle (x >>= f) = settle x >>= fun
      | .returned a => settle (f a)
      | .threw => .ok .threw := by
  cases x with
  | ok a => rfl
  | error stop =>
    cases stop with
    | fault fault => rfl
    | threw => rfl

theorem settle_ofChecked (x : Checked α) : settle (ofChecked x) = x.map .returned := by
  cases x with
  | ok a => rfl
  | error fault => rfl

/-- A loop that stops at an exception is one that goes on without doing anything. -/
theorem settle_forUpTo {body : σ → Nat → Except Stop σ}
    {body' : Outcome σ → Nat → Checked (Outcome σ)} (n : Nat)
    (hbody : ∀ i s, settle (body s i) = body' (.returned s) i)
    (hthrew : ∀ i, body' .threw i = .ok .threw) (init : σ) :
    settle (forUpTo n body init) = forUpTo n body' (.returned init) := by
  induction n with
  | zero => rfl
  | succ n ih =>
    rw [forUpTo_succ, forUpTo_succ, settle_bind, ih]
    refine congrArg (forUpTo n body' (.returned init) >>= ·) (funext fun s => ?_)
    cases s with
    | returned s => exact hbody n s
    | threw => exact (hthrew n).symm

/-- What a call does to the outside: the number of tokens it submits to llama.cpp, and the
embedding it passes to the callback of a stream. -/
inductive LlamaEvent where
  | submitted (tokens : Nat)
  | delivered (embedding : List ℚ)
  deriving DecidableEq, Repr

abbrev LlamaCall (α : Type) := Logged LlamaEvent Stop α

-- ---------------------------------------------------------------------------
-- llama.cpp
-- ---------------------------------------------------------------------------

/-- `llama_vocab`. `tokens` is its inner tokenizer, which adds and parses special tokens. -/
structure LlamaVocab where
  tokens : Bytes → List Int
  nTokens : Nat

namespace LlamaVocab

/-- `llama_vocab::tokenize`: the return value and what is written to the buffer. The
`std::string` of a text whose length is negative throws. -/
def tokenize (v : LlamaVocab) (text : Bytes) (textLen nTokensMax : Int) :
    Except Stop (Int × List Int) :=
  if textLen < 0 then .error .threw
  else
    let res := v.tokens (text.take textLen.toNat)
    if intMax ≤ res.length then .ok (intMin, [])
    else if nTokensMax < res.length then .ok (-res.length, [])
    else .ok (res.length, res)

/-- The two calls of `tokenize` of the session and of the pool: one for the count, one that
fills the buffer. The `max_tokens` that both work out is read by nothing. -/
def tokenizeTwice (v : LlamaVocab) (text : Bytes) : Except Stop (Int × List Int) := do
  let textLen := toInt32 text.length
  let (ret, _) ← v.tokenize text textLen 0
  let needed ← ofChecked (subInt 0 ret)
  let (actual, written) ← v.tokenize text textLen needed
  return (actual, written ++ List.replicate (needed.toNat - written.length) 0)

end LlamaVocab

/-- What the sessions set of `llama_context_params`; no `n_batch` is the default one. -/
structure LlamaContextParams where
  nCtx : Int
  nThreads : Int
  nBatch : Option Int
  deriving DecidableEq, Repr

/-- A loaded model. `encode` and `decode` are the return value and the embedding or the logits
of a context with some parameters, or an abort. -/
structure LlamaModel where
  vocab : LlamaVocab
  nEmbd : Nat
  nEmbdPos : 0 < nEmbd
  nCtxTrain : Int
  encode : LlamaContextParams → List Int → Checked (Int × Option (List ℚ))
  decode : LlamaContextParams → List Int → Checked (Int × Option (List ℚ))

/-- What loading comes to: the model of a path with some layers on the GPU, and whether the
`k`-th context of a model can be created. -/
structure LlamaCpp where
  loadModel : Bytes → Int → Option LlamaModel
  initContext : LlamaModel → LlamaContextParams → Nat → Bool

structure LlamaContext where
  model : LlamaModel
  params : LlamaContextParams

/-- What session and pool make of `llama_encode` and `llama_get_embeddings_seq`: a copy of
`nEmbd` floats. -/
def embeddingOf (nEmbd : Nat) (encoded : Checked (Int × Option (List ℚ))) :
    Except Stop (List ℚ) := do
  let (ret, embd) ← ofChecked encoded
  if ret ≠ 0 then .error .threw
  else match embd with
    | none => .error .threw
    | some embd => ofChecked (readAt embd 0 nEmbd)

/-- `mparams.n_gpu_layers` -/
def gpuLayers (nGpuLayers : Int) : Int := if nGpuLayers < 0 then 999 else nGpuLayers

/-- `n_ctx_` -/
def contextSize (nCtx nCtxTrain : Int) : Int :=
  let ctxDefault := if nCtxTrain ≤ 0 then 4096 else nCtxTrain
  if 0 < nCtx then nCtx else ctxDefault

def setBatch (nBatch : Int) : Option Int := if 0 < nBatch then some nBatch else none

theorem contextSize_pos (nCtx nCtxTrain : Int) : 0 < contextSize nCtx nCtxTrain := by
  simp only [contextSize]
  split
  · assumption
  · split <;> omega

-- ---------------------------------------------------------------------------
-- `LlamaSession`
-- ---------------------------------------------------------------------------

/-- `ctx` is there once a model has been loaded. -/
structure LlamaSession where
  ctx : Option LlamaContext
  nCtx : Int
  nEmbd : Nat

namespace LlamaSession

def new : LlamaSession := ⟨none, 0, 0⟩

def loadFromFile (cpp : LlamaCpp) (modelPath : Bytes) (numThreads nCtx nGpuLayers nBatch : Int) :
    Outcome LlamaSession :=
  match cpp.loadModel modelPath (gpuLayers nGpuLayers) with
  | none => .threw
  | some model =>
    let nThreads := if 0 < numThreads then numThreads else 4
    let nCtx := contextSize nCtx model.nCtxTrain
    let params := ⟨nCtx, nThreads, setBatch nBatch⟩
    if cpp.initContext model params 0 then .returned ⟨some ⟨model, params⟩, nCtx, model.nEmbd⟩
    else .threw

def dimension (s : LlamaSession) : Nat := s.nEmbd

def maxContext (s : LlamaSession) : Int := s.nCtx

def tokenize (s : LlamaSession) (text : Bytes) : Except Stop (List Int) :=
  match s.ctx with
  | none => .ok []
  | some ctx => do
    let (_, tokens) ← ctx.model.vocab.tokenizeTwice text
    return tokens

def embedTokens (s : LlamaSession) (tokens : List Int) : LlamaCall (List ℚ) :=
  match s.ctx with
  | none => pure (List.replicate s.nEmbd 0)
  | some ctx =>
    if tokens = [] then pure (List.replicate s.nEmbd 0)
    else do
      Logged.emit (.submitted tokens.length)
      Logged.lift (embeddingOf s.nEmbd (ctx.model.encode ctx.params tokens))

def embed (s : LlamaSession) (text : Bytes) : LlamaCall (List ℚ) := do
  let tokens ← Logged.lift (s.tokenize text)
  s.embedTokens tokens

/-- A string of the list ends for `embed` at its first NUL. -/
def embedBatch (s : LlamaSession) (texts : List Bytes) : LlamaCall (List (List ℚ)) :=
  texts.foldlM (fun results text => do
    let v ← s.embed (cstr text)
    return results ++ [v]) []

def classify (s : LlamaSession) (text : Bytes) : LlamaCall ℚ :=
  match s.ctx with
  | none => Logged.stop .threw
  | some ctx => do
    let tokens ← Logged.lift (s.tokenize text)
    if tokens = [] then return 0
    else
      Logged.emit (.submitted tokens.length)
      let (ret, logits) ← Logged.lift (ofChecked (ctx.model.decode ctx.params tokens))
      if ret ≠ 0 then Logged.stop .threw
      else match logits with
        | none => Logged.stop .threw
        | some logits => Logged.lift (ofChecked do
            let lastToken ← subInt tokens.length 1
            let off ← mulInt lastToken ctx.model.vocab.nTokens
            get logits off.toNat)

end LlamaSession

-- ---------------------------------------------------------------------------
-- `LlamaSessionPool`
-- ---------------------------------------------------------------------------

/-- The members of `LlamaSessionPool` that its calls read. -/
structure LlamaPool where
  model : Option LlamaModel
  contexts : List LlamaContextParams
  nCtx : Int
  nEmbd : Nat
  nextIdx : Nat

/-- `recommended_workers_for_model`: it looks at the machine only. -/
def recommendedWorkers (physicalCores : Int) : Int := min (physicalCores * 2) 8

namespace LlamaPool

def new : LlamaPool := ⟨none, [], 0, 0, 0⟩

def loadFromFile (cpp : LlamaCpp) (modelPath : Bytes)
    (nSessions numThreadsPerSession nCtx nGpuLayers nBatch : Int) : Outcome LlamaPool :=
  if nSessions ≤ 0 then .threw
  else match cpp.loadModel modelPath (gpuLayers nGpuLayers) with
    | none => .threw
    | some model =>
      let nCtx := contextSize nCtx model.nCtxTrain
      let params := ⟨nCtx, numThreadsPerSession, setBatch nBatch⟩
      if ∀ k < nSessions.toNat, cpp.initContext model params k then
        .returned ⟨some model, List.replicate nSessions.toNat params, nCtx, model.nEmbd, 0⟩
      else .threw

def loadFromFileAuto (cpp : LlamaCpp) (physicalCores : Int) (modelPath : Bytes)
    (nCtx nGpuLayers nBatch : Int) : Outcome LlamaPool :=
  loadFromFile cpp modelPath (recommendedWorkers physicalCores) 1 nCtx nGpuLayers nBatch

def tokenize (p : LlamaPool) (text : Bytes) : Except Stop (Int × List Int) :=
  match p.model with
  | none => .ok (0, [])
  | some model => model.vocab.tokenizeTwice text

/-- The vector and the next `next_idx_`, which wraps around. -/
def embed (p : LlamaPool) (text : Bytes) : LlamaCall (List ℚ × LlamaPool) :=
  match p.contexts[p.nextIdx % p.contexts.length]?, p.model with
  | some params, some model => do
    let (_, tokens) ← Logged.lift (p.tokenize text)
    Logged.emit (.submitted tokens.length)
    let v ← Logged.lift (embeddingOf p.nEmbd (model.encode params tokens))
    return (v, { p with nextIdx := (p.nextIdx + 1) % 2 ^ 64 })
  | _, _ => Logged.stop .threw

/-- Also the callback that the scheduler of the pool runs on the texts of its requests. -/
def embedBatch (p : LlamaPool) (texts : List Bytes) : LlamaCall (List (List ℚ) × LlamaPool) :=
  texts.foldlM (fun s text => do
    let (v, p) ← s.2.embed (cstr text)
    return (s.1 ++ [v], p)) ([], p)

def tokenizeLength (p : LlamaPool) (text : Bytes) : Except Stop Nat := do
  let (actual, _) ← p.tokenize (cstr text)
  return actual.toNat

/-- The locals of the loop of `embed_batch_bucketed`. -/
structure Bucketing where
  out : List (List ℚ)
  batch : List (Nat × Bytes)
  pool : LlamaPool

/-- The texts of a full batch, or of the last one, are embedded and their vectors put back in
place. -/
def bucket (total : Nat) (batchSize : Int) (s : Bucketing) (entry : (Nat × Bytes) × Nat) :
    LlamaCall Bucketing :=
  let batch := s.batch ++ [entry.1]
  if batchSize ≤ batch.length ∨ entry.2 + 1 = total then do
    let (vectors, pool) ← s.pool.embedBatch (batch.map Prod.snd)
    let out ← Logged.lift (ofChecked (forUpTo batch.length (fun out j => do
      let target ← get (batch.map Prod.fst) j
      let v ← get vectors j
      writeAt out target [v]) s.out))
    return ⟨out, [], pool⟩
  else return { s with batch }

/-- `reserve` throws on a negative batch size. The comparison tokenizes both texts. -/
def embedBatchBucketed (sorter : SortImpl) (p : LlamaPool) (texts : List Bytes) (batchSize : Int) :
    LlamaCall (List (List ℚ)) :=
  if texts = [] then pure []
  else do
    let lengths ← Logged.lift (if 1 < texts.length then texts.mapM p.tokenizeLength
      else .ok (texts.map fun _ => 0))
    let order ← Logged.lift (ofChecked (sorter.sort
      (fun a b : (Nat × Bytes) × Nat => decide (a.2 < b.2))
      ((texts.zipIdx.map Prod.swap).zip lengths)))
    if batchSize < 0 then Logged.stop .threw
    else
      let s ← ((order.map Prod.fst).zipIdx).foldlM (bucket texts.length batchSize)
        ⟨List.replicate texts.length [], [], p⟩
      return s.out

def dimension (p : LlamaPool) : Nat := p.nEmbd

end LlamaPool

end LibEmbedding
