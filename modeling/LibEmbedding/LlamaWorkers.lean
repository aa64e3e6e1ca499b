import LibEmbedding.LlamaSubmissions
import LibEmbedding.TextEmbeddingCache

/-!
# Contexts with automatic workers

With `auto_workers` the creator loads the pool, and every call still goes to the session, which
is as it was built. Such a context answers every call with vectors of no places; the pool it
has loaded would have given the vectors of a session.
-/

namespace LibEmbedding

open Foundation

/-- The vectors a callback has got. -/
def delivered (log : List LlamaEvent) : List (List ℚ) :=
  log.filterMap fun
    | .delivered embedding => some embedding
    | .submitted _ => none

/-- What an `embed` call is asked for, and when. -/
structure LlamaRequest where
  texts : List Bytes
  batchSize : Int
  now : Int
  deriving DecidableEq, Repr

namespace LlamaTextEmbedding

/-- The backend that `embed_subset` dispatches to. -/
def backend (ctx : LlamaTextEmbedding) (sqrt : ℚ → ℚ) : Backend ℚ where
  onnxEmbed _ _ _ := .ok .threw
  llamaEmbedBatch subset out := settle (ctx.llamaEmbedBatch sqrt subset out).result

/-- The replies of a fresh context to a history of requests. -/
def embeds (ctx : LlamaTextEmbedding) (sqrt : ℚ → ℚ) (requests : List LlamaRequest) :
    Checked (List (EmbedReply ℚ)) := do
  let (replies, _) ← TextEmbedding.run
    (requests.map fun r => ⟨r.texts, r.batchSize, r.now, ctx.backend sqrt⟩)
    (.create .llamacpp ctx.dim ctx.batchSize ctx.cacheSize)
  return replies

/-- The status of `lembed_text_embedding_embed_stream` and what its callback has got. -/
def embedStream (ctx : LlamaTextEmbedding) (sqrt : ℚ → ℚ) (texts : List Bytes) :
    Checked Status × List (List ℚ) :=
  if texts.length = 0 then (.ok .invalidArgument, [])
  else
    let stream := ctx.llamaEmbedStream sqrt texts
    ((settle stream.result).map fun
      | .returned () => .ok
      | .threw => .llama, delivered stream.log)

/-- Nothing a caller can see tells the two contexts apart. -/
structure SameAnswers (sqrt : ℚ → ℚ) (a b : LlamaTextEmbedding) : Prop where
  dimension : a.dim = b.dim
  maxLength : a.maxLength = b.maxLength
  embed : ∀ requests, a.embeds sqrt requests = b.embeds sqrt requests
  stream : ∀ texts, a.embedStream sqrt texts = b.embedStream sqrt texts

/-- A context of either kind answers alike, if both can be created. -/
def WorkersTransparent (cpp : LlamaCpp) (physicalCores : Int) (ggufPath : Bytes)
    (options : LlamaTextOptions) (sqrt : ℚ → ℚ) : Prop :=
  ∀ pooled single,
    createFromGgufPath cpp physicalCores ggufPath { options with autoWorkers := true } =
      .ok pooled →
    createFromGgufPath cpp physicalCores ggufPath { options with autoWorkers := false } =
      .ok single →
    SameAnswers sqrt pooled single

/-- Both kinds of context can be created. -/
def BothCreated (cpp : LlamaCpp) (physicalCores : Int) (ggufPath : Bytes)
    (options : LlamaTextOptions) : Prop :=
  ∀ autoWorkers, ∃ ctx,
    createFromGgufPath cpp physicalCores ggufPath { options with autoWorkers } = .ok ctx

variable {cpp : LlamaCpp} {physicalCores : Int} {ggufPath : Bytes} {options : LlamaTextOptions}
  {ctx : LlamaTextEmbedding} {sqrt : ℚ → ℚ}

-- ---------------------------------------------------------------------------
-- What is loaded
-- ---------------------------------------------------------------------------

/-- The session of a context with workers is the one it was built with. -/
theorem create_pooled (hauto : options.autoWorkers = true)
    (h : createFromGgufPath cpp physicalCores ggufPath options = .ok ctx) :
    ctx.session = .new ∧ ctx.dim = 0 ∧ ctx.maxLength = max options.maxLength 0 := by
  unfold createFromGgufPath at h
  split at h
  · cases h
  · dsimp only at h
    rw [load, hauto, if_pos rfl] at h
    split at h
    · cases h
    · rename_i hload
      split at hload
      · cases hload
        cases h
        refine ⟨rfl, rfl, ?_⟩
        change (if (if 0 < options.maxLength then options.maxLength else 0) = 0 then (0 : Int)
          else if 0 < options.maxLength then options.maxLength else 0) = max options.maxLength 0
        split <;> omega
      · cases hload

/-- A loaded session has the dimension of its model. -/
theorem create_single (hauto : options.autoWorkers = false)
    (h : createFromGgufPath cpp physicalCores ggufPath options = .ok ctx) : 0 < ctx.dim := by
  unfold createFromGgufPath at h
  split at h
  · cases h
  · dsimp only at h
    rw [load, hauto, if_neg Bool.false_ne_true] at h
    split at h
    · cases h
    · rename_i hload
      split at hload
      · rename_i hsession
        cases hload
        cases h
        obtain ⟨model, params, -, rfl⟩ := LlamaSession.loadFromFile_spec hsession
        exact model.nEmbdPos
      · cases hload

/-- The workers show in the dimension already. -/
theorem workersTransparent_iff (cpp : LlamaCpp) (physicalCores : Int) (ggufPath : Bytes)
    (options : LlamaTextOptions) (sqrt : ℚ → ℚ) :
    WorkersTransparent cpp physicalCores ggufPath options sqrt ↔
      ¬BothCreated cpp physicalCores ggufPath options := by
  constructor
  · intro h hboth
    obtain ⟨pooled, hpooled⟩ := hboth true
    obtain ⟨single, hsingle⟩ := hboth false
    have hdim := (h pooled single hpooled hsingle).dimension
    obtain ⟨-, hnone, -⟩ := create_pooled rfl hpooled
    have hpos := create_single rfl hsingle
    omega
  · intro h pooled single hpooled hsingle
    refine absurd (fun autoWorkers => ?_) h
    cases autoWorkers with
    | true => exact ⟨pooled, hpooled⟩
    | false => exact ⟨single, hsingle⟩

/-- A model of one dimension, and of none with workers. -/
theorem workers_lose_dimension :
    ¬WorkersTransparent bytewiseCpp 4 (ascii "m.gguf") ⟨0, 0, 0, 0, 0, 0, 0, false⟩ id := by
  intro h
  have hdim := (h _ _ rfl rfl).dimension
  exact absurd hdim (by decide)

-- ---------------------------------------------------------------------------
-- What a context with workers answers
-- ---------------------------------------------------------------------------

theorem embedSingle_unloaded (hsession : ctx.session = .new) (hdim : ctx.dim = 0) (text : Bytes)
    (data : List ℚ) : ctx.llamaEmbedSingle text data 0 = pure data := by
  have hembed : ctx.session.embed text = Logged.lift (.ok []) := by
    rw [hsession]
    rfl
  have hread : ofChecked (readAt ([] : List ℚ) 0 ctx.dim) = .ok [] := by
    rw [hdim]
    rfl
  have hwrite : ofChecked (writeAt data 0 []) = .ok data :=
    ofChecked_ok.mpr (writeAt_ok.mpr ⟨Nat.zero_le _, rfl⟩)
  rw [llamaEmbedSingle, hembed, Logged.lift_bind rfl, Logged.lift_bind hread, hwrite]
  rfl

/-- Rows without places are left alone. -/
theorem l2Normalize_zero (sqrt : ℚ → ℚ) (vectors : List ℚ) (n : Nat) :
    l2Normalize sqrt vectors n 0 = .ok vectors := by
  refine forUpTo_fixed fun i _ => ?_
  have hoffset : intOffset i 0 = .ok () := by
    refine ensure_pos ?_
    rw [Nat.cast_zero, mul_zero]
    decide
  have hread : readAt vectors (i * 0) 0 = .ok [] :=
    readAt_ok.mpr ⟨Nat.zero_le _, List.take_zero⟩
  have hwrite : writeAt vectors (i * 0) [] = .ok vectors :=
    writeAt_ok.mpr ⟨Nat.zero_le _, rfl⟩
  rw [hoffset, ok_bind, hread, ok_bind]
  exact hwrite

/-- Its backend fills the empty matrix. -/
theorem pooled_pure (hsession : ctx.session = .new) (hdim : ctx.dim = 0) (sqrt : ℚ → ℚ) :
    (ctx.backend sqrt).Pure 0 fun _ => [] where
  length_vec _ := rfl
  onnxEmbed := by
    intro subset batchSize out out' _ h
    cases h
  llamaEmbedBatch := by
    intro subset out out' hlen h
    cases List.length_eq_zero_iff.mp hlen
    have hloop : (Logged.forUpTo subset.length (fun resultData i => do
        let text ← Logged.lift (ofChecked (get subset i))
        ctx.llamaEmbedSingle text resultData (i * ctx.dim)) [] : LlamaCall (List ℚ)).result =
        .ok [] := by
      rw [Logged.result_forUpTo]
      refine forUpTo_fixed fun i hi => ?_
      have hget := ofChecked_ok.mpr (get_ok.mpr (List.getElem?_eq_getElem hi))
      have hoff : i * ctx.dim = 0 := by rw [hdim, Nat.mul_zero]
      rw [Logged.lift_bind hget, hoff, embedSingle_unloaded hsession hdim]
      rfl
    have hresult : (ctx.llamaEmbedBatch sqrt subset []).result = .ok [] := by
      rw [llamaEmbedBatch, Logged.bind_of_ok hloop, hdim, l2Normalize_zero]
      rfl
    change settle (ctx.llamaEmbedBatch sqrt subset []).result = _ at h
    rw [hresult] at h
    cases h
    exact (List.flatMap_eq_nil_iff.mpr fun _ _ => rfl).symm

/-- After any history, what a context with workers returns for a list of texts is a matrix of
no columns. -/
theorem pooled_embed (hauto : options.autoWorkers = true)
    (h : createFromGgufPath cpp physicalCores ggufPath options = .ok ctx)
    {calls : List (EmbedCall ℚ)} {call : EmbedCall ℚ}
    (hcalls : ∀ c ∈ call :: calls, c.backend = ctx.backend sqrt)
    (hrun : TextEmbedding.run calls (.create .llamacpp ctx.dim ctx.batchSize ctx.cacheSize) =
      .ok (replies, state))
    (hembed : state.embed call = .ok (reply, next)) (hok : reply.status = .ok) :
    reply.result = some ⟨some [], call.texts.length, 0⟩ := by
  obtain ⟨hsession, hdim, -⟩ := create_pooled hauto h
  have hpure : ∀ c ∈ call :: calls, c.backend.Pure 0 fun _ => [] := by
    intro c hc
    rw [hcalls c hc]
    exact pooled_pure hsession hdim sqrt
  rw [hdim] at hrun
  obtain ⟨hserves, hstate, -⟩ := TextEmbedding.run_serves
    (fun c hc => hpure c (List.mem_cons_of_mem call hc))
    (TextEmbedding.create_serves _ _ _ _ _) hrun
  have hdim' : state.dim = 0 := hstate
  have hanswers := TextEmbedding.embed_answers
    (by rw [hdim']; exact hpure call List.mem_cons_self) hserves hembed
  rw [hanswers.matrix hok, hdim', List.flatMap_eq_nil_iff.mpr fun _ _ => rfl]

/-- A stream delivers as many vectors without places as it has texts. -/
theorem pooled_stream (hauto : options.autoWorkers = true)
    (h : createFromGgufPath cpp physicalCores ggufPath options = .ok ctx) (sqrt : ℚ → ℚ)
    (texts : List Bytes) : ctx.llamaEmbedStream sqrt texts =
      ⟨List.replicate texts.length (.delivered []), .ok ()⟩ := by
  obtain ⟨hsession, hdim, -⟩ := create_pooled hauto h
  rw [← Logged.forUpTo_emit, llamaEmbedStream]
  refine Logged.forUpTo_congr fun i hi _ => ?_
  have hget := ofChecked_ok.mpr (get_ok.mpr (List.getElem?_eq_getElem hi))
  have hread : ofChecked (readAt (malloc maxDim : List ℚ) 0 ctx.dim) = .ok [] := by
    rw [hdim]
    exact ofChecked_ok.mpr (readAt_ok.mpr ⟨Nat.zero_le _, List.take_zero⟩)
  have hnorm : ofChecked (l2Normalize sqrt (malloc maxDim) 1 ctx.dim) =
      .ok (malloc maxDim : List ℚ) := by
    rw [hdim]
    exact ofChecked_ok.mpr (l2Normalize_zero sqrt _ 1)
  rw [Logged.lift_bind hget, embedSingle_unloaded hsession hdim]
  change (Logged.lift (ofChecked (l2Normalize sqrt (malloc maxDim) 1 ctx.dim)) >>= fun emb =>
    Logged.lift (ofChecked (readAt emb 0 ctx.dim)) >>= fun vec =>
      Logged.emit (.delivered vec) : LlamaCall Unit) = _
  rw [Logged.lift_bind hnorm, Logged.lift_bind hread]

-- ---------------------------------------------------------------------------
-- What the pool would have answered
-- ---------------------------------------------------------------------------

/-- Over a model whose contexts agree, the pool gives a text with tokens the vector of a
session. -/
theorem pool_embed_eq {p : LlamaPool} {s : LlamaSession} {model : LlamaModel} {threads : Int}
    (hp : LlamaPool.loadFromFile cpp path nSessions 1 nCtx nGpuLayers nBatch = .returned p)
    (hs : LlamaSession.loadFromFile cpp path threads nCtx nGpuLayers nBatch = .returned s)
    (hmodel : cpp.loadModel path (gpuLayers nGpuLayers) = some model)
    (hagree : ∀ params params' tokens, model.encode params tokens = model.encode params' tokens)
    (hcount : model.vocab.count text = some (n + 1)) :
    (p.embed text).result.map Prod.fst = (s.embed text).result := by
  obtain ⟨found, params, k, hfound, hpool⟩ := LlamaPool.loadFromFile_spec hp
  cases hmodel.symm.trans hfound
  obtain ⟨found, params', hfound, hsession⟩ := LlamaSession.loadFromFile_spec hs
  cases hmodel.symm.trans hfound
  have hp : p.model = some model := by rw [hpool]
  have hs : s.ctx = some ⟨model, params'⟩ := by rw [hsession]
  have hnEmbd : p.nEmbd = s.nEmbd := by rw [hpool, hsession]
  have hparams : p.contexts[p.nextIdx % p.contexts.length]? = some params := by
    have hidx : p.nextIdx = 0 := by rw [hpool]
    have hcontexts : p.contexts = params :: List.replicate k params := by
      rw [hpool]
      rfl
    rw [hidx, Nat.zero_mod, hcontexts]
    rfl
  rw [LlamaPool.embed_result hp hparams hcount, LlamaSession.embed_result hs hcount,
    hagree params params', hnEmbd]

end LlamaTextEmbedding

end LibEmbedding
