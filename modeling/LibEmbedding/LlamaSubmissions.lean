import LibEmbedding.LlamaContexts

/-!
# What the llama.cpp objects submit

Whatever a session, a pool or a context is given comes to `tokenizeTwice` and from there to
`llama_encode` or `llama_decode` whole: the lemmas of this module say so of the calls one by
one, for every property of what is submitted.
-/

namespace LibEmbedding

open Foundation

namespace LlamaVocab

/-- The tokens of a text; its length has gone through an `int`. -/
def ids (v : LlamaVocab) (text : Bytes) : List Int :=
  v.tokens (text.take (toInt32 text.length).toNat)

/-- How many tokens a text comes to. There is no count for a text whose length turns negative
as an `int`, or for more tokens than an `int` counts. -/
def count (v : LlamaVocab) (text : Bytes) : Option Nat :=
  if 0 ≤ toInt32 text.length ∧ ((v.ids text).length : Int) < intMax then
    some (v.ids text).length
  else none

theorem count_eq_some {v : LlamaVocab} : v.count text = some n ↔
    0 ≤ toInt32 text.length ∧ (n : Int) < intMax ∧ (v.ids text).length = n := by
  unfold count
  split
  · rename_i hfits
    constructor
    · rintro ⟨⟩
      exact ⟨hfits.1, hfits.2, rfl⟩
    · rintro ⟨-, -, rfl⟩
      rfl
  · rename_i hover
    constructor
    · rintro ⟨⟩
    · rintro ⟨hlength, hcount, rfl⟩
      exact absurd ⟨hlength, hcount⟩ hover

/-- A buffer that is too small gets nothing, and the count comes back negative. -/
theorem tokenize_eq {v : LlamaVocab} (h : v.count text = some n) (nTokensMax : Int) :
    v.tokenize text (toInt32 text.length) nTokensMax =
      .ok (if nTokensMax < n then (-(n : Int), []) else ((n : Int), v.ids text)) := by
  obtain ⟨hlength, hcount, rfl⟩ := count_eq_some.mp h
  rw [tokenize, if_neg (not_lt.mpr hlength)]
  change (if intMax ≤ ((v.ids text).length : Int) then _ else
    if nTokensMax < (v.ids text).length then _ else _) = _
  rw [if_neg (not_le.mpr hcount)]
  split
  · rfl
  · rfl

theorem tokenizeTwice_eq {v : LlamaVocab} (h : v.count text = some n) :
    v.tokenizeTwice text = .ok ((n : Int), v.ids text) := by
  obtain ⟨-, hcount, hn⟩ := count_eq_some.mp h
  have hret : (if (0 : Int) < n then (-(n : Int), []) else ((n : Int), v.ids text)).1 =
      -(n : Int) := by
    split
    · rfl
    · omega
  have hneeded : subInt 0 (-(n : Int)) = .ok (n : Int) := by
    have hmin : intMin ≤ 0 := by decide
    rw [subInt, zero_sub, neg_neg, narrow_eq ⟨by omega, by omega⟩]
  rw [tokenizeTwice, tokenize_eq h, ok_bind]
  simp only [hret, hneeded, ofChecked, ok_bind, tokenize_eq h, if_neg (lt_irrefl (n : Int))]
  rw [hn, Int.toNat_natCast, Nat.sub_self, List.replicate_zero, List.append_nil]
  rfl

theorem tokenizeTwice_stops {v : LlamaVocab} (h : v.count text = none) :
    ∃ stop, v.tokenizeTwice text = .error stop := by
  by_cases hlength : toInt32 text.length < 0
  · refine ⟨.threw, ?_⟩
    rw [tokenizeTwice, tokenize, if_pos hlength]
    rfl
  · have hmany : intMax ≤ ((v.ids text).length : Int) := by
      by_contra hfew
      have hcount := count_eq_some.mpr ⟨not_lt.mp hlength, not_le.mp hfew, rfl⟩
      cases h.symm.trans hcount
    have hfirst : v.tokenize text (toInt32 text.length) 0 = .ok (intMin, []) := by
      rw [tokenize, if_neg hlength]
      exact if_pos hmany
    refine ⟨.fault .overflow, ?_⟩
    rw [tokenizeTwice, hfirst]
    rfl

/-- The tokens of a text come back whole, or not at all. -/
theorem tokenizeTwice_ok {v : LlamaVocab} : v.tokenizeTwice text = .ok r ↔
    ∃ n, v.count text = some n ∧ r = ((n : Int), v.ids text) := by
  cases hcount : v.count text with
  | some n =>
    rw [tokenizeTwice_eq hcount]
    constructor
    · rintro ⟨⟩
      exact ⟨n, rfl, rfl⟩
    · rintro ⟨m, hm, rfl⟩
      cases hm
      rfl
  | none =>
    obtain ⟨stop, hstop⟩ := tokenizeTwice_stops hcount
    rw [hstop]
    constructor
    · rintro ⟨⟩
    · rintro ⟨m, ⟨⟩, -⟩

end LlamaVocab

-- ---------------------------------------------------------------------------
-- The session
-- ---------------------------------------------------------------------------

namespace LlamaSession

variable {P : LlamaEvent → Prop} {s : LlamaSession}

theorem tokenize_ok {ctx : LlamaContext} (hctx : s.ctx = some ctx) :
    s.tokenize text = .ok tokens ↔
      ∃ n, ctx.model.vocab.count text = some n ∧ tokens = ctx.model.vocab.ids text := by
  rw [tokenize, hctx]
  constructor
  · intro h
    obtain ⟨r, hr, h⟩ := bind_ok.mp h
    obtain ⟨n, hn, rfl⟩ := LlamaVocab.tokenizeTwice_ok.mp hr
    cases h
    exact ⟨n, hn, rfl⟩
  · rintro ⟨n, hn, rfl⟩
    change ctx.model.vocab.tokenizeTwice text >>= _ = _
    rw [LlamaVocab.tokenizeTwice_eq hn]
    rfl

/-- Tokens are submitted, if there are any, before anything else is done with them. -/
theorem submit_emits {tokens : List Int} {empty : β} {next : Unit → LlamaCall β}
    (hnext : ∀ u, (next u).Emits P) :
    (if tokens = [] then pure empty else Logged.emit (.submitted tokens.length) >>= next :
      LlamaCall β).Emits P ↔ (tokens ≠ [] → P (.submitted tokens.length)) := by
  split
  · rename_i hnil
    exact iff_of_true (.pure _) fun hne => absurd hnil hne
  · rename_i hne
    constructor
    · intro h _
      exact Logged.emits_emit.mp h.of_bind
    · intro h
      exact Logged.Emits.bind (Logged.emits_emit.mpr (h hne)) fun u _ => hnext u

/-- Tokens go to `llama_encode` as they are. -/
theorem embedTokens_emits {ctx : LlamaContext} (hctx : s.ctx = some ctx) (tokens : List Int) :
    (s.embedTokens tokens).Emits P ↔ tokens ≠ [] → P (.submitted tokens.length) := by
  rw [embedTokens, hctx]
  exact submit_emits fun _ => .lift _

/-- What a session submits of the texts it is given. -/
def Submits (s : LlamaSession) (P : LlamaEvent → Prop) (text : Bytes) : Prop :=
  ∀ ctx, s.ctx = some ctx → ∀ n, ctx.model.vocab.count text = some n → n ≠ 0 → P (.submitted n)

/-- What submits all tokens it is given submits those of the text. -/
theorem tokenize_emits {ctx : LlamaContext} {next : List Int → LlamaCall β}
    (hctx : s.ctx = some ctx)
    (hnext : ∀ tokens, (next tokens).Emits P ↔ (tokens ≠ [] → P (.submitted tokens.length))) :
    (Logged.lift (s.tokenize text) >>= next).Emits P ↔ s.Submits P text := by
  constructor
  · intro h c hc n hn hne
    cases hctx.symm.trans hc
    obtain ⟨-, -, hlength⟩ := LlamaVocab.count_eq_some.mp hn
    have htokens := (tokenize_ok hctx).mpr ⟨n, hn, rfl⟩
    rw [Logged.lift_bind htokens, hnext, hlength] at h
    exact h (List.ne_nil_of_length_pos (by omega))
  · intro h
    refine Logged.Emits.bind (.lift _) fun tokens htokens => (hnext tokens).mpr fun hne => ?_
    obtain ⟨n, hn, rfl⟩ := (tokenize_ok hctx).mp htokens
    obtain ⟨-, -, hlength⟩ := LlamaVocab.count_eq_some.mp hn
    rw [hlength]
    exact h ctx hctx n hn fun hzero => hne (List.length_eq_zero_iff.mp (hlength.trans hzero))

/-- Every token of a loaded session's text is submitted. -/
theorem embed_emits : (s.embed text).Emits P ↔ s.Submits P text := by
  cases hctx : s.ctx with
  | none =>
    refine iff_of_true (.of_log_nil ?_) fun ctx hsome => by cases hctx.symm.trans hsome
    have htokens : s.tokenize text = .ok [] := by rw [tokenize, hctx]
    rw [embed, Logged.lift_bind htokens, embedTokens, hctx]
    rfl
  | some ctx => exact tokenize_emits hctx (embedTokens_emits hctx)

/-- The vector of a text with tokens. -/
theorem embed_result {ctx : LlamaContext} (hctx : s.ctx = some ctx)
    (hcount : ctx.model.vocab.count text = some (n + 1)) : (s.embed text).result =
      embeddingOf s.nEmbd (ctx.model.encode ctx.params (ctx.model.vocab.ids text)) := by
  obtain ⟨-, -, hlength⟩ := LlamaVocab.count_eq_some.mp hcount
  have hne : ctx.model.vocab.ids text ≠ [] := List.ne_nil_of_length_pos (by omega)
  have htokens := (tokenize_ok hctx).mpr ⟨n + 1, hcount, rfl⟩
  rw [embed, Logged.lift_bind htokens, embedTokens, hctx]
  dsimp only
  rw [if_neg hne, Logged.bind_of_ok rfl]
  rfl

theorem classify_emits : (s.classify text).Emits P ↔ s.Submits P text := by
  cases hctx : s.ctx with
  | none =>
    refine iff_of_true (.of_log_nil ?_) fun ctx hsome => by cases hctx.symm.trans hsome
    rw [classify, hctx]
    rfl
  | some ctx =>
    rw [classify, hctx]
    refine tokenize_emits hctx fun tokens => submit_emits fun _ => ?_
    refine Logged.Emits.bind (.lift _) fun r _ => ?_
    obtain ⟨ret, logits⟩ := r
    dsimp only
    split
    · exact .stop _
    · split
      · exact .stop _
      · exact .lift _

theorem embedBatch_emits {texts : List Bytes} (h : ∀ text ∈ texts, s.Submits P (cstr text)) :
    (s.embedBatch texts).Emits P := by
  refine .foldlM (fun _ => True) trivial (fun text htext results _ => ?_) fun _ _ _ _ _ _ => trivial
  exact Logged.Emits.bind (embed_emits.mpr (h text htext)) fun _ _ => .pure _

theorem loadFromFile_spec {nCtx : Int}
    (h : loadFromFile cpp modelPath numThreads nCtx nGpuLayers nBatch = .returned s) :
    ∃ model params, cpp.loadModel modelPath (gpuLayers nGpuLayers) = some model ∧
      s = ⟨some ⟨model, params⟩, contextSize nCtx model.nCtxTrain, model.nEmbd⟩ := by
  unfold loadFromFile at h
  split at h
  · cases h
  · rename_i model hmodel
    have hinit : ∀ params, (if cpp.initContext model params 0 then
        Outcome.returned ⟨some ⟨model, params⟩, contextSize nCtx model.nCtxTrain, model.nEmbd⟩
        else .threw) = .returned s →
        s = ⟨some ⟨model, params⟩, contextSize nCtx model.nCtxTrain, model.nEmbd⟩ := by
      intro params hparams
      split at hparams
      · cases hparams
        rfl
      · cases hparams
    exact ⟨model, _, hmodel, hinit _ h⟩

end LlamaSession

-- ---------------------------------------------------------------------------
-- The pool
-- ---------------------------------------------------------------------------

namespace LlamaPool

/-- A pool whose calls have gone on counting. -/
def Continues (p q : LlamaPool) : Prop := ∃ k, q = { p with nextIdx := k }

variable {P : LlamaEvent → Prop} {p : LlamaPool} {texts : List Bytes}

/-- What a pool submits of the texts it is given, also when they have no tokens. -/
def Submits (p : LlamaPool) (P : LlamaEvent → Prop) (text : Bytes) : Prop :=
  p.contexts ≠ [] → ∀ model, p.model = some model →
    ∀ n, model.vocab.count text = some n → P (.submitted n)

theorem tokenize_eq {model : LlamaModel} (hmodel : p.model = some model) :
    p.tokenize text = model.vocab.tokenizeTwice text := by
  rw [tokenize, hmodel]

theorem embed_emits : (p.embed text).Emits P ↔ p.Submits P text := by
  cases hcontexts : p.contexts[p.nextIdx % p.contexts.length]? with
  | none =>
    refine iff_of_true (.of_log_nil ?_) fun hne => ?_
    · rw [embed, hcontexts]
      rfl
    · have hlt := Nat.mod_lt p.nextIdx (List.length_pos_iff.mpr hne)
      cases hcontexts.symm.trans (List.getElem?_eq_getElem hlt)
  | some params =>
    have hne : p.contexts ≠ [] := by
      intro hnil
      rw [hnil] at hcontexts
      cases hcontexts
    cases hmodel : p.model with
    | none =>
      refine iff_of_true (.of_log_nil ?_) fun _ model hsome => by cases hmodel.symm.trans hsome
      rw [embed, hcontexts, hmodel]
      rfl
    | some model =>
      have htokenize : p.tokenize text = _ := tokenize_eq hmodel
      rw [embed, hcontexts, hmodel]
      constructor
      · intro h _ found hfound n hn
        cases hmodel.symm.trans hfound
        obtain ⟨-, -, hlength⟩ := LlamaVocab.count_eq_some.mp hn
        dsimp only at h
        rw [Logged.lift_bind (htokenize.trans (LlamaVocab.tokenizeTwice_eq hn))] at h
        have hfirst := Logged.emits_emit.mp h.of_bind
        rwa [hlength] at hfirst
      · intro h
        refine Logged.Emits.bind (.lift _) fun r hr => ?_
        have htwice : model.vocab.tokenizeTwice text = .ok r := htokenize ▸ hr
        obtain ⟨n, hn, rfl⟩ := LlamaVocab.tokenizeTwice_ok.mp htwice
        obtain ⟨-, -, hlength⟩ := LlamaVocab.count_eq_some.mp hn
        have hsubmits : P (.submitted (model.vocab.ids text).length) := by
          rw [hlength]
          exact h hne model hmodel n hn
        refine Logged.Emits.bind (Logged.emits_emit.mpr hsubmits) fun _ _ => ?_
        exact Logged.Emits.bind (.lift _) fun _ _ => .pure _

theorem embed_result {model : LlamaModel} (hmodel : p.model = some model)
    (hparams : p.contexts[p.nextIdx % p.contexts.length]? = some params)
    (hcount : model.vocab.count text = some n) : (p.embed text).result.map Prod.fst =
      embeddingOf p.nEmbd (model.encode params (model.vocab.ids text)) := by
  have htokens := (tokenize_eq hmodel).trans (LlamaVocab.tokenizeTwice_eq hcount)
  rw [embed, hparams, hmodel]
  dsimp only
  rw [Logged.lift_bind htokens]
  dsimp only
  rw [Logged.bind_of_ok rfl, Logged.result_bind, Logged.result_lift]
  cases embeddingOf p.nEmbd (model.encode params (model.vocab.ids text)) with
  | error stop => rfl
  | ok v => rfl

theorem Continues.refl (p : LlamaPool) : p.Continues p := ⟨p.nextIdx, rfl⟩

theorem Continues.trans {q r : LlamaPool} (hpq : p.Continues q) (hqr : q.Continues r) :
    p.Continues r := by
  obtain ⟨k, rfl⟩ := hpq
  obtain ⟨k', rfl⟩ := hqr
  exact ⟨k', rfl⟩

theorem Continues.submits {q : LlamaPool} (h : p.Continues q) :
    q.Submits P text ↔ p.Submits P text := by
  obtain ⟨k, rfl⟩ := h
  exact Iff.rfl

theorem embed_continues {r : List ℚ × LlamaPool} (h : (p.embed text).result = .ok r) :
    p.Continues r.2 := by
  unfold embed at h
  split at h
  · rw [Logged.result_bind, bind_ok] at h
    obtain ⟨tokens, -, h⟩ := h
    rw [Logged.result_bind, bind_ok] at h
    obtain ⟨-, -, h⟩ := h
    rw [Logged.result_bind, bind_ok] at h
    obtain ⟨v, -, h⟩ := h
    cases h
    exact ⟨_, rfl⟩
  · cases h

/-- One iteration of `embed_batch`. -/
theorem embedBatch_step {s t : List (List ℚ) × LlamaPool}
    (h : (s.2.embed (cstr text) >>= fun e => pure (s.1 ++ [e.1], e.2) :
      LlamaCall (List (List ℚ) × LlamaPool)).result = .ok t) (hs : p.Continues s.2) :
    p.Continues t.2 := by
  rw [Logged.result_bind, bind_ok] at h
  obtain ⟨e, he, h⟩ := h
  cases h
  exact hs.trans (embed_continues he)

theorem embedBatch_emits (h : ∀ text ∈ texts, p.Submits P (cstr text)) :
    (p.embedBatch texts).Emits P :=
  .foldlM (fun s => p.Continues s.2) (.refl p)
    (fun text htext _ hs =>
      Logged.Emits.bind (embed_emits.mpr (hs.submits.mpr (h text htext))) fun _ _ => .pure _)
    fun _ _ _ _ hs ht => embedBatch_step ht hs

theorem embedBatch_continues {r : List (List ℚ) × LlamaPool}
    (h : (p.embedBatch texts).result = .ok r) : p.Continues r.2 :=
  Logged.foldlM_invariant (fun s : List (List ℚ) × LlamaPool => p.Continues s.2) (.refl p)
    (fun _ _ _ _ hs ht => embedBatch_step ht hs) h

/-- A bucket holds texts of the list, and its pool is the one it began with. -/
structure Bucketing.Sound (p : LlamaPool) (texts : List Bytes) (s : Bucketing) : Prop where
  pool : p.Continues s.pool
  batch : ∀ entry ∈ s.batch, entry.2 ∈ texts

theorem Bucketing.Sound.append {s : Bucketing} (hs : s.Sound p texts) (hentry : entry.2 ∈ texts) :
    ∀ e ∈ s.batch ++ [entry], e.2 ∈ texts := by
  intro e he
  rcases List.mem_append.mp he with hbatch | hlast
  · exact hs.batch e hbatch
  · cases List.mem_singleton.mp hlast
    exact hentry

theorem bucket_emits {s : Bucketing} (h : ∀ text ∈ texts, p.Submits P (cstr text))
    (hs : s.Sound p texts) (hentry : entry.1.2 ∈ texts) (total : Nat) (batchSize : Int) :
    (bucket total batchSize s entry).Emits P := by
  unfold bucket
  dsimp only
  split
  · refine Logged.Emits.bind (embedBatch_emits fun text htext => ?_) fun _ _ =>
      Logged.Emits.bind (.lift _) fun _ _ => .pure _
    obtain ⟨e, he, rfl⟩ := List.mem_map.mp htext
    exact hs.pool.submits.mpr (h _ (hs.append hentry e he))
  · exact .pure _

theorem bucket_sound {s t : Bucketing} (hs : s.Sound p texts) (hentry : entry.1.2 ∈ texts)
    {total : Nat} {batchSize : Int} (h : (bucket total batchSize s entry).result = .ok t) :
    t.Sound p texts := by
  unfold bucket at h
  dsimp only at h
  split at h
  · rw [Logged.result_bind, bind_ok] at h
    obtain ⟨r, hr, h⟩ := h
    rw [Logged.result_bind, bind_ok] at h
    obtain ⟨out, -, h⟩ := h
    cases h
    exact ⟨hs.pool.trans (embedBatch_continues hr), nofun⟩
  · cases h
    exact ⟨hs.pool, hs.append hentry⟩

theorem embedBatchBucketed_emits (sorter : SortImpl)
    (h : ∀ text ∈ texts, p.Submits P (cstr text)) (batchSize : Int) :
    (p.embedBatchBucketed sorter texts batchSize).Emits P := by
  unfold embedBatchBucketed
  split
  · exact .pure _
  · refine Logged.Emits.bind (.lift _) fun lengths _ => ?_
    refine Logged.Emits.bind (.lift _) fun order hsorted => ?_
    split
    · exact .stop _
    · have hmem : ∀ e ∈ (order.map Prod.fst).zipIdx, e.1.2 ∈ texts := by
        obtain ⟨out, hout, hperm, -⟩ := sorter.sort_spec _ _
          (StrictWeak.of_key (fun e : (Nat × Bytes) × Nat => e.2)
            ((texts.zipIdx.map Prod.swap).zip lengths))
        cases hout.symm.trans (ofChecked_ok.mp hsorted)
        intro e he
        obtain ⟨e', he', heq⟩ := List.mem_map.mp (List.fst_mem_of_mem_zipIdx he)
        have hzip := List.of_mem_zip (hperm.mem_iff.mp he')
        obtain ⟨e'', he'', heq'⟩ := List.mem_map.mp hzip.1
        rw [← heq, ← heq']
        exact List.fst_mem_of_mem_zipIdx he''
      refine Logged.Emits.bind (.foldlM (fun s => s.Sound p texts) ⟨.refl p, nofun⟩
        (fun e he s hs => bucket_emits h hs (hmem e he) _ _)
        fun e he s t hs ht => bucket_sound hs (hmem e he) ht) fun _ _ => .pure _

theorem loadFromFile_spec {nCtx : Int}
    (h : loadFromFile cpp modelPath nSessions numThreads nCtx nGpuLayers nBatch = .returned p) :
    ∃ model params n, cpp.loadModel modelPath (gpuLayers nGpuLayers) = some model ∧
      p = ⟨some model, List.replicate (n + 1) params, contextSize nCtx model.nCtxTrain,
        model.nEmbd, 0⟩ := by
  unfold loadFromFile at h
  split at h
  · cases h
  · rename_i hpos
    split at h
    · cases h
    · rename_i model hmodel
      dsimp only at h
      split at h
      · cases h
        obtain ⟨n, hn⟩ : ∃ n, nSessions.toNat = n + 1 := ⟨nSessions.toNat - 1, by omega⟩
        rw [hn]
        exact ⟨model, _, n, hmodel, rfl⟩
      · cases h

end LlamaPool

-- ---------------------------------------------------------------------------
-- Contexts
-- ---------------------------------------------------------------------------

namespace LlamaTextEmbedding

variable {P : LlamaEvent → Prop} {ctx : LlamaTextEmbedding} {texts : List Bytes}

theorem embedSingle_emits (h : ctx.session.Submits P text) (outData : List ℚ) (off : Nat) :
    (ctx.llamaEmbedSingle text outData off).Emits P := by
  refine Logged.Emits.bind (LlamaSession.embed_emits.mpr h) fun _ _ => ?_
  exact Logged.Emits.bind (.lift _) fun _ _ => .lift _

theorem embedBatch_emits (h : ∀ text ∈ texts, ctx.session.Submits P text) (sqrt : ℚ → ℚ)
    (resultData : List ℚ) : (ctx.llamaEmbedBatch sqrt texts resultData).Emits P := by
  refine Logged.Emits.bind (.forUpTo fun i hi data => ?_) fun _ _ => .lift _
  have hget := ofChecked_ok.mpr (get_ok.mpr (List.getElem?_eq_getElem hi))
  rw [Logged.lift_bind hget]
  exact embedSingle_emits (h _ (List.getElem_mem hi)) _ _

theorem embedStream_emits (h : ∀ text ∈ texts, ctx.session.Submits P text) (sqrt : ℚ → ℚ)
    (hdelivered : ∀ vec, P (.delivered vec)) : (ctx.llamaEmbedStream sqrt texts).Emits P := by
  refine .forUpTo fun i hi _ => ?_
  have hget := ofChecked_ok.mpr (get_ok.mpr (List.getElem?_eq_getElem hi))
  rw [Logged.lift_bind hget]
  refine Logged.Emits.bind (embedSingle_emits (h _ (List.getElem_mem hi)) _ _) fun _ _ => ?_
  refine Logged.Emits.bind (.lift _) fun _ _ => ?_
  exact Logged.Emits.bind (.lift _) fun _ _ => Logged.emits_emit.mpr (hdelivered _)

/-- A call on one text submits it. -/
theorem submits_of_embed {sqrt : ℚ → ℚ} {resultData : List ℚ}
    (h : (ctx.llamaEmbedBatch sqrt [text] resultData).Emits P) : ctx.session.Submits P text := by
  have hloop := h.of_bind.of_forUpTo Nat.one_pos
  have hget : ofChecked (get [text] 0) = .ok text := rfl
  rw [Logged.lift_bind hget] at hloop
  exact LlamaSession.embed_emits.mp hloop.of_bind

/-- The object that the options do not name stays unloaded; a loaded session has room. -/
theorem create_spec (h : createFromGgufPath cpp physicalCores ggufPath options = .ok ctx) :
    ∀ c, ctx.session.ctx = some c →
      options.autoWorkers = false ∧
        cpp.loadModel ggufPath (gpuLayers options.nGpuLayers) = some c.model ∧
        ctx.session.nCtx = contextSize options.nCtx c.model.nCtxTrain ∧
        ctx.maxLength =
          if 0 < options.maxLength then options.maxLength else ctx.session.nCtx := by
  intro c hc
  unfold createFromGgufPath at h
  split at h
  · cases h
  · dsimp only at h
    unfold load at h
    cases hauto : options.autoWorkers with
    | true =>
      rw [hauto, if_pos rfl] at h
      split at h
      · cases h
      · rename_i hload
        split at hload
        · cases hload
          cases h
          cases hc
        · cases hload
    | false =>
      rw [hauto, if_neg Bool.false_ne_true] at h
      split at h
      · cases h
      · rename_i hload
        split at hload
        · rename_i hsession
          cases hload
          cases h
          obtain ⟨model, params, hmodel, rfl⟩ := LlamaSession.loadFromFile_spec hsession
          cases hc
          refine ⟨rfl, hmodel, rfl, ?_⟩
          dsimp only
          by_cases hpos : 0 < options.maxLength
          · rw [if_pos hpos, if_neg hpos.ne', if_pos hpos]
          · rw [if_neg hpos, if_pos rfl, if_neg hpos]
            rfl
        · cases hload

end LlamaTextEmbedding

namespace LlamaReranker

variable {P : LlamaEvent → Prop} {ctx : LlamaReranker} {documents : List Bytes}

theorem rerank_emits (h : ∀ document ∈ documents, ctx.session.Submits P (pairText query document))
    (batchSize : Int) : (ctx.llamaRerank query documents batchSize).Emits P := by
  refine Logged.Emits.bind (.lift _) fun numBatches _ => .forUpTo fun bi _ scores => ?_
  refine Logged.Emits.bind (.lift _) fun range _ => ?_
  refine .foldlM (fun _ => True) trivial (fun i _ scores _ => ?_) fun _ _ _ _ _ _ => trivial
  refine Logged.Emits.bind (.lift _) fun document hget => ?_
  have hmem : document ∈ documents := List.mem_of_getElem? (get_ok.mp (ofChecked_ok.mp hget))
  exact Logged.Emits.bind (LlamaSession.classify_emits.mpr (h document hmem)) fun _ _ => .lift _

/-- A call on one document submits the pair. -/
theorem submits_of_rerank (h : (ctx.llamaRerank query [document] 1).Emits P) :
    ctx.session.Submits P (pairText query document) := by
  have hcount : ofChecked (batchCount ([document].length : Nat) 1) = .ok 1 :=
    ofChecked_ok.mpr (by decide : batchCount (1 : Nat) 1 = .ok 1)
  have hrange : ofChecked (getBatch (0 : Nat) ([document].length : Nat) 1) = .ok ⟨0, 1⟩ :=
    ofChecked_ok.mpr (by decide : getBatch (0 : Nat) (1 : Nat) 1 = .ok ⟨0, 1⟩)
  have hget : ofChecked (get [document] 0) = .ok document := rfl
  unfold llamaRerank at h
  rw [if_neg (by decide), Logged.lift_bind hcount] at h
  have hloop := Logged.Emits.of_forUpTo Nat.one_pos h
  have honly : List.range' (0 : Int).toNat ((1 : Int) - 0).toNat = [0] := rfl
  rw [Logged.lift_bind hrange] at hloop
  dsimp only at hloop
  rw [honly, List.foldlM_cons] at hloop
  have hfirst := hloop.of_bind
  rw [Logged.lift_bind hget] at hfirst
  exact LlamaSession.classify_emits.mp hfirst.of_bind

theorem create_spec (h : createFromGgufPath cpp resolve ggufPath options = .ok ctx) :
    ctx.session.nCtx = 512 ∧
      ctx.maxLength = if 0 < options.maxLength then options.maxLength else 512 := by
  unfold createFromGgufPath at h
  split at h
  · cases h
  · split at h
    · cases h
    · dsimp only at h
      split at h
      · cases h
      · rename_i hsession
        cases h
        obtain ⟨model, params, -, rfl⟩ := LlamaSession.loadFromFile_spec hsession
        refine ⟨rfl, if_neg ?_⟩
        split <;> omega

end LlamaReranker

end LibEmbedding
