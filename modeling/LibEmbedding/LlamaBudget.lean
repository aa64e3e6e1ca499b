import LibEmbedding.LlamaSubmissions

/-!
# The token budget of the llama.cpp backends

No path cuts the tokens of a text down, so a context size or a reported length is kept exactly
where the text has no more tokens anyway.
-/

namespace LibEmbedding

open Foundation

/-- What a submission keeps to. -/
def Within (nCtx maxLength : Int) : LlamaEvent → Prop
  | .submitted tokens => tokens ≤ nCtx ∧ tokens ≤ maxLength
  | .delivered _ => True

-- ---------------------------------------------------------------------------
-- Sessions and pools
-- ---------------------------------------------------------------------------

namespace LlamaSession

variable {s : LlamaSession}

/-- The text has no more tokens than the context and than `maxLength`. -/
def Fits (s : LlamaSession) (maxLength : Int) (text : Bytes) : Prop :=
  ∀ ctx, s.ctx = some ctx → ∀ n, ctx.model.vocab.count text = some n → n ≤ s.nCtx ∧ n ≤ maxLength

theorem submits_within {maxLength : Int}
    (hroom : ∀ ctx, s.ctx = some ctx → 0 ≤ s.nCtx ∧ 0 ≤ maxLength) :
    s.Submits (Within s.nCtx maxLength) text ↔ s.Fits maxLength text := by
  constructor
  · intro h ctx hctx n hn
    rcases Nat.eq_zero_or_pos n with rfl | hpos
    · exact hroom ctx hctx
    · exact h ctx hctx n hn hpos.ne'
  · intro h ctx hctx n hn _
    exact h ctx hctx n hn

/-- The calls on a session, with the C strings they come to. -/
inductive Call where
  | embed (text : Bytes)
  | embedBatch (texts : List Bytes)
  | classify (text : Bytes)

def Call.texts : Call → List Bytes
  | .embed text => [text]
  | .embedBatch texts => texts.map cstr
  | .classify text => [text]

def perform (s : LlamaSession) : Call → List LlamaEvent
  | .embed text => (s.embed text).log
  | .embedBatch texts => (s.embedBatch texts).log
  | .classify text => (s.classify text).log

/-- In every call on such texts, no submission is over the context. -/
def KeepsContext (s : LlamaSession) (T : Bytes → Prop) : Prop :=
  ∀ call : Call, (∀ text ∈ call.texts, T text) → ∀ e ∈ s.perform call, Within s.nCtx s.nCtx e

/-- A session keeps to its context on texts that fit, and only on these. -/
theorem keepsContext_iff {nCtx : Int} {s : LlamaSession}
    (h : loadFromFile cpp modelPath numThreads nCtx nGpuLayers nBatch = .returned s)
    (T : Bytes → Prop) : s.KeepsContext T ↔ ∀ text, T text → s.Fits s.nCtx text := by
  have hroom : ∀ ctx, s.ctx = some ctx → 0 ≤ s.nCtx ∧ 0 ≤ s.nCtx := by
    obtain ⟨model, params, -, rfl⟩ := loadFromFile_spec h
    have hpos := contextSize_pos nCtx model.nCtxTrain
    exact fun _ _ => ⟨hpos.le, hpos.le⟩
  constructor
  · intro hwithin text htext
    have hsingle := hwithin (.embed text) (by simpa [Call.texts] using htext)
    exact (submits_within hroom).mp (embed_emits.mp hsingle)
  · intro hfits call hcall
    have hsubmits : ∀ text ∈ call.texts, s.Submits (Within s.nCtx s.nCtx) text :=
      fun text htext => (submits_within hroom).mpr (hfits text (hcall text htext))
    cases call with
    | embed text => exact embed_emits.mpr (hsubmits text List.mem_cons_self)
    | embedBatch texts =>
      exact embedBatch_emits fun text htext => hsubmits _ (List.mem_map_of_mem htext)
    | classify text => exact classify_emits.mpr (hsubmits text List.mem_cons_self)

end LlamaSession

namespace LlamaPool

/-- The calls on a pool, with the C strings they come to. -/
inductive Call where
  | embed (text : Bytes)
  | embedBatch (texts : List Bytes)
  | embedBatchBucketed (texts : List Bytes) (batchSize : Int)

def Call.texts : Call → List Bytes
  | .embed text => [text]
  | .embedBatch texts => texts.map cstr
  | .embedBatchBucketed texts _ => texts.map cstr

def perform (p : LlamaPool) (sorter : SortImpl) : Call → List LlamaEvent
  | .embed text => (p.embed text).log
  | .embedBatch texts => (p.embedBatch texts).log
  | .embedBatchBucketed texts batchSize => (p.embedBatchBucketed sorter texts batchSize).log

/-- In every call on such texts, however many calls came before, no submission is over the
contexts. -/
def KeepsContext (p : LlamaPool) (sorter : SortImpl) (T : Bytes → Prop) : Prop :=
  ∀ q, p.Continues q → ∀ call : Call, (∀ text ∈ call.texts, T text) →
    ∀ e ∈ q.perform sorter call, Within p.nCtx p.nCtx e

variable {p : LlamaPool}

/-- The text has no more tokens than the contexts. -/
def Fits (p : LlamaPool) (text : Bytes) : Prop :=
  ∀ model, p.model = some model → ∀ n, model.vocab.count text = some n → n ≤ p.nCtx

/-- A pool keeps to its contexts on texts that fit, and only on these. -/
theorem keepsContext_iff {nCtx : Int}
    (h : loadFromFile cpp modelPath nSessions numThreads nCtx nGpuLayers nBatch = .returned p)
    (sorter : SortImpl) (T : Bytes → Prop) :
    p.KeepsContext sorter T ↔ ∀ text, T text → p.Fits text := by
  have hcontexts : p.contexts ≠ [] := by
    obtain ⟨model, params, n, -, rfl⟩ := loadFromFile_spec h
    exact List.cons_ne_nil _ _
  constructor
  · intro hwithin text htext model hmodel n hn
    have hsingle := hwithin p (.refl p) (.embed text) (by simpa [Call.texts] using htext)
    exact (embed_emits.mp hsingle hcontexts model hmodel n hn).1
  · intro hfits q hq call hcall
    have hsubmits : ∀ text ∈ call.texts, q.Submits (Within p.nCtx p.nCtx) text := by
      intro text htext
      refine hq.submits.mpr fun _ model hmodel n hn => ?_
      have hle := hfits text (hcall text htext) model hmodel n hn
      exact ⟨hle, hle⟩
    cases call with
    | embed text => exact embed_emits.mpr (hsubmits text List.mem_cons_self)
    | embedBatch texts =>
      exact embedBatch_emits fun text htext => hsubmits _ (List.mem_map_of_mem htext)
    | embedBatchBucketed texts batchSize =>
      exact embedBatchBucketed_emits sorter
        (fun text htext => hsubmits _ (List.mem_map_of_mem htext)) batchSize

end LlamaPool

-- ---------------------------------------------------------------------------
-- Contexts
-- ---------------------------------------------------------------------------

namespace LlamaTextEmbedding

/-- The calls that come to the session, with any of the texts of a request. -/
inductive Call where
  | embed (texts : List Bytes) (resultData : List ℚ)
  | stream (texts : List Bytes)

def Call.texts : Call → List Bytes
  | .embed texts _ => texts
  | .stream texts => texts

/-- What a call does to the outside. -/
def perform (ctx : LlamaTextEmbedding) (sqrt : ℚ → ℚ) : Call → List LlamaEvent
  | .embed texts resultData => (ctx.llamaEmbedBatch sqrt texts resultData).log
  | .stream texts => (ctx.llamaEmbedStream sqrt texts).log

/-- In every call on such texts, no submission is over the context or the reported length. -/
def KeepsBudget (ctx : LlamaTextEmbedding) (sqrt : ℚ → ℚ) (T : Bytes → Prop) : Prop :=
  ∀ call : Call, (∀ text ∈ call.texts, T text) →
    ∀ e ∈ ctx.perform sqrt call, Within ctx.session.nCtx ctx.maxLength e

variable {ctx : LlamaTextEmbedding}

theorem create_room (h : createFromGgufPath cpp physicalCores ggufPath options = .ok ctx) :
    ∀ c, ctx.session.ctx = some c → 0 ≤ ctx.session.nCtx ∧ 0 ≤ ctx.maxLength := by
  intro c hc
  obtain ⟨-, -, hsize, hlength⟩ := create_spec h c hc
  have hpos := contextSize_pos options.nCtx c.model.nCtxTrain
  rw [hlength, hsize]
  refine ⟨hpos.le, ?_⟩
  split
  · omega
  · exact hpos.le

/-- A context keeps to its budget on texts that fit, and only on these. -/
theorem keepsBudget_iff (h : createFromGgufPath cpp physicalCores ggufPath options = .ok ctx)
    (sqrt : ℚ → ℚ) (T : Bytes → Prop) :
    ctx.KeepsBudget sqrt T ↔ ∀ text, T text → ctx.session.Fits ctx.maxLength text := by
  have hroom := create_room h
  constructor
  · intro hwithin text htext
    have hsingle := hwithin (.embed [text] []) (by simpa [Call.texts] using htext)
    exact (LlamaSession.submits_within hroom).mp (submits_of_embed hsingle)
  · intro hfits call hcall
    have hsubmits : ∀ text ∈ call.texts,
        ctx.session.Submits (Within ctx.session.nCtx ctx.maxLength) text := fun text htext =>
      (LlamaSession.submits_within hroom).mpr (hfits text (hcall text htext))
    cases call with
    | embed texts resultData => exact embedBatch_emits hsubmits sqrt resultData
    | stream texts => exact embedStream_emits hsubmits sqrt fun _ => trivial

end LlamaTextEmbedding

namespace LlamaReranker

/-- In every call on such pairs, no submission is over the context or the reported length. -/
def KeepsBudget (ctx : LlamaReranker) (T : Bytes → Bytes → Prop) : Prop :=
  ∀ query documents batchSize, (∀ document ∈ documents, T query document) →
    ∀ e ∈ (ctx.llamaRerank query documents batchSize).log,
      Within ctx.session.nCtx ctx.maxLength e

variable {ctx : LlamaReranker}

/-- A context keeps to its budget on pairs that fit, and only on these. -/
theorem keepsBudget_iff (h : createFromGgufPath cpp resolve ggufPath options = .ok ctx)
    (T : Bytes → Bytes → Prop) :
    ctx.KeepsBudget T ↔ ∀ query document, T query document →
      ctx.session.Fits ctx.maxLength (pairText query document) := by
  obtain ⟨hsize, hlength⟩ := create_spec h
  have hroom : ∀ c, ctx.session.ctx = some c → 0 ≤ ctx.session.nCtx ∧ 0 ≤ ctx.maxLength := by
    intro _ _
    rw [hsize, hlength]
    refine ⟨by decide, ?_⟩
    split <;> omega
  constructor
  · intro hwithin query document hpair
    have hsingle := hwithin query [document] 1 (by simpa using hpair)
    exact (LlamaSession.submits_within hroom).mp (submits_of_rerank hsingle)
  · intro hfits query documents batchSize hcall
    exact rerank_emits (fun document hmem =>
      (LlamaSession.submits_within hroom).mpr (hfits query document (hcall document hmem))) batchSize

end LlamaReranker

-- ---------------------------------------------------------------------------
-- Every object over a model
-- ---------------------------------------------------------------------------

/-- Contexts keep to their context size and reported length, and sessions and pools to their
context size, exactly on the texts and pairs that have no more tokens anyway. -/
theorem token_budget_iff (cpp : LlamaCpp) (T : Bytes → Prop) (Q : Bytes → Bytes → Prop) :
    (∀ physicalCores ggufPath options ctx sqrt,
      LlamaTextEmbedding.createFromGgufPath cpp physicalCores ggufPath options = .ok ctx →
        (ctx.KeepsBudget sqrt T ↔ ∀ text, T text → ctx.session.Fits ctx.maxLength text)) ∧
    (∀ resolve ggufPath options ctx,
      LlamaReranker.createFromGgufPath cpp resolve ggufPath options = .ok ctx →
        (ctx.KeepsBudget Q ↔ ∀ query document, Q query document →
          ctx.session.Fits ctx.maxLength (pairText query document))) ∧
    (∀ path numThreads nCtx nGpuLayers nBatch s,
      LlamaSession.loadFromFile cpp path numThreads nCtx nGpuLayers nBatch = .returned s →
        (s.KeepsContext T ↔ ∀ text, T text → s.Fits s.nCtx text)) ∧
    (∀ path nSessions numThreads nCtx nGpuLayers nBatch p sorter,
      LlamaPool.loadFromFile cpp path nSessions numThreads nCtx nGpuLayers nBatch = .returned p →
        (p.KeepsContext sorter T ↔ ∀ text, T text → p.Fits text)) := by
  refine ⟨?_, ?_, ?_, ?_⟩
  · intro _ _ _ _ sqrt hcreate
    exact LlamaTextEmbedding.keepsBudget_iff hcreate sqrt T
  · intro _ _ _ _ hcreate
    exact LlamaReranker.keepsBudget_iff hcreate Q
  · intro _ _ _ _ _ _ hload
    exact LlamaSession.keepsContext_iff hload T
  · intro _ _ _ _ _ _ _ sorter hload
    exact LlamaPool.keepsContext_iff hload sorter T

/-- With the default options, three tokens go to a context of two. -/
theorem three_tokens_submitted : ∃ ctx,
    LlamaTextEmbedding.createFromGgufPath bytewiseCpp 4 (ascii "m.gguf")
      ⟨0, 0, 0, 0, 0, 0, 0, false⟩ = .ok ctx ∧
    ¬ctx.KeepsBudget id fun _ => True := by
  refine ⟨_, rfl, fun h => ?_⟩
  have hsubmitted := h (.embed [ascii "abc"] [0]) (fun _ _ => trivial) (.submitted 3)
    (by decide +kernel)
  exact absurd hsubmitted.1 (by decide)

end LibEmbedding
