import LibEmbedding.InferenceRuns
import LibEmbedding.RerankerCache
import LibEmbedding.TextEmbeddingCache

/-!
# The counter of inference batches

`batches_run` counts the batches a call would need. What a call really ran is in its events,
and the two agree on every call of a sequence exactly when they agree on the numbers here.
-/

namespace LibEmbedding

open Foundation Logged

-- ---------------------------------------------------------------------------
-- Text
-- ---------------------------------------------------------------------------

namespace OnnxEmbedder

variable {e : OnnxEmbedder} {texts : List Bytes}

/-- A batch that returns has run once. -/
theorem embedBatchRuns_one {s : Outcome (List ℚ × List ℚ)}
    (h : (e.embedBatchRuns texts indices batchSize s bi).Ran t k) (ht : t ≠ .threw) :
    s ≠ .threw ∧ k = 1 := by
  cases s with
  | threw =>
    obtain ⟨rfl, -⟩ := ran_pure.mp h
    exact absurd rfl ht
  | returned s =>
    refine ⟨by simp, ?_⟩
    simp only [embedBatchRuns, pooledBatchRuns, ran_lift_bind] at h
    obtain ⟨range, -, batch, -, h⟩ := h
    obtain ⟨pooled, i, j, hpooled, hrest, rfl⟩ := ran_bind.mp h
    obtain ⟨flat, -, hflat⟩ := ran_lift_bind.mp hpooled
    obtain ⟨_, one, more, hone, hmore, rfl⟩ := ran_bind.mp hflat
    obtain rfl := ran_emit.mp hone
    have hmore : more = 0 := by
      split at hmore
      · exact (ran_pure.mp hmore).2
      · simp only [ran_lift_bind, ran_pure] at hmore
        obtain ⟨_, _, _, _, _, hzero⟩ := hmore
        exact hzero
    have hj : j = 0 := by
      cases pooled with
      | threw => exact (ran_pure.mp hrest).2
      | returned pooled =>
        simp only [ran_lift_bind, ran_pure] at hrest
        obtain ⟨_, _, _, hzero⟩ := hrest
        exact hzero
    omega

/-- How many texts go into one batch. -/
def runSize (e : OnnxEmbedder) (b : Nat) : Nat := if e.batchStrategy = .sequential then 1 else b

/-- A call that returns has run once for each of its batches. -/
theorem onnxEmbedRuns_count {b : Nat} (hb : 0 < b)
    (h : (e.onnxEmbedRuns texts b data).Ran (.returned out) k) :
    k = sliceCount (e.runSize b) texts.length := by
  have hsize : (if e.batchStrategy = .sequential then 1 else (b : Int)) = (e.runSize b : Nat) := by
    unfold runSize
    split <;> rfl
  have hpos : 0 < e.runSize b := by
    unfold runSize
    split <;> omega
  simp only [onnxEmbedRuns, ran_lift_bind, hsize] at h
  obtain ⟨indices, -, numBatches, hcount, h⟩ := h
  obtain ⟨-, rfl⟩ := (batchCount_slices hpos).mp hcount
  obtain ⟨final, i, j, hloop, hrest, rfl⟩ := ran_bind.mp h
  cases final with
  | threw =>
    obtain ⟨hthrew, -⟩ := ran_pure.mp hrest
    cases hthrew
  | returned final =>
    obtain ⟨-, rfl⟩ := ran_pure.mp hrest
    exact hloop.forUpTo (· ≠ .threw) (fun _ _ _ _ hstep ht => embedBatchRuns_one hstep ht) (by simp)

end OnnxEmbedder

namespace TextEmbedding

variable {ctx : TextEmbedding ℚ} {dim i n hits misses : Nat}

/-- What the creators and the calls keep: an ONNX context whose cache is a map. -/
structure Sound (ctx : TextEmbedding ℚ) : Prop where
  backend : ctx.backendType = .onnx
  cache : ∀ cache, ctx.cache = some cache → ∃ s, LRUCache.Refines cache s

/-- The cache has a vector of the text. -/
def answers (ctx : TextEmbedding ℚ) (now : Int) (text : Bytes) : Bool :=
  match ctx.cache with
  | none => false
  | some cache => (cache.peek now text).any (·.length = ctx.dim)

/-- How many texts of a call the cache has no vector of. -/
def uncached (ctx : TextEmbedding ℚ) (r : TextRequest) : Nat :=
  r.texts.countP fun text => !ctx.answers r.now text

/-- The state of the lookups: they have not changed what the others find. -/
structure Split.Counts (now : Int) (texts : List Bytes) (dim : Nat) (cache : LRUCache Bytes ℚ)
    (i : Nat) (s : Split ℚ) : Prop where
  refines : ∃ m, LRUCache.Refines s.cache m
  peek : ∀ text, s.cache.peek now text = cache.peek now text
  count : s.missTexts.length = (texts.take i).countP fun text =>
    !(cache.peek now text).any (·.length = dim)

theorem lookupText_counts {now : Int} {texts : List Bytes} {cache : LRUCache Bytes ℚ}
    {s t : Split ℚ} (hs : s.Counts now texts dim cache i)
    (h : lookupText now texts dim s i = .ok t) : t.Counts now texts dim cache (i + 1) := by
  simp only [lookupText, bind_ok, get_ok] at h
  obtain ⟨text, htext, ⟨hit, after⟩, hget, h⟩ := h
  obtain ⟨m, hm⟩ := hs.refines
  have hfound : hit = cache.peek now text := by
    rw [← hs.peek text, LRUCache.peek, hget]
  obtain ⟨hrefines, hpeek⟩ := hm.peek_getCopyVec text hget
  have hsame : ∀ other, after.peek now other = cache.peek now other := fun other =>
    (hpeek other).trans (hs.peek other)
  have hany : hit.any (·.length = dim) = (hit.filter (·.length = dim)).isSome :=
    Option.isSome_filter.symm
  cases hhit : hit.filter (·.length = dim) with
  | some v =>
    simp only [hhit, bind_ok] at h
    obtain ⟨data, -, h⟩ := h
    cases h
    refine ⟨hrefines, hsame, ?_⟩
    rw [List.take_add_one, htext, List.countP_append, ← hs.count]
    simp [← hfound, hany, hhit]
  | none =>
    simp only [hhit] at h
    cases h
    refine ⟨hrefines, hsame, ?_⟩
    rw [List.take_add_one, htext, List.countP_append, ← hs.count]
    simp [← hfound, hany, hhit]

theorem lookups_count {now : Int} {texts : List Bytes} {cache : LRUCache Bytes ℚ} {s : Split ℚ}
    (hcache : ∃ m, LRUCache.Refines cache m)
    (h : Foundation.forUpTo texts.length (lookupText now texts dim)
      ⟨data, cache, [], [], hits, misses⟩ = .ok s) :
    (∃ m, LRUCache.Refines s.cache m) ∧ s.missTexts.length = texts.countP fun text =>
      !(cache.peek now text).any (·.length = dim) := by
  have hcounts := forUpTo_invariant (Split.Counts now texts dim cache)
    ⟨hcache, fun _ => rfl, rfl⟩ (fun i s t _ hs hstep => lookupText_counts hs hstep) h
  refine ⟨hcounts.refines, ?_⟩
  rw [hcounts.count, List.take_length]

theorem scatter_refines {now : Int} {texts : List Bytes} {s t : List ℚ × LRUCache Bytes ℚ}
    (hs : ∃ m, LRUCache.Refines s.2 m)
    (h : Foundation.forUpTo n (scatterMiss now texts dim missBuf missIndices) s = .ok t) :
    ∃ m, LRUCache.Refines t.2 m := by
  refine forUpTo_invariant (fun _ (s : List ℚ × LRUCache Bytes ℚ) =>
    ∃ m, LRUCache.Refines s.2 m) hs ?_ h
  rintro i s t - ⟨m, hm⟩ hstep
  simp only [scatterMiss, bind_ok] at hstep
  obtain ⟨j, -, vec, -, data, -, text, -, cache, hput, hstep⟩ := hstep
  cases hstep
  obtain ⟨after, hafter, hrefines⟩ := hm.put now text vec
  cases hput.symm.trans hafter
  exact ⟨_, hrefines⟩

theorem finish_counts {b ran : Nat} (hb : 0 < b)
    (h : ctx.finish n ran b data = .ok (reply, next)) (hctx : ctx.backendType = .onnx) :
    next.batchesRun = ctx.batchesRun + sliceCount b ran ∧
      next.backendType = ctx.backendType ∧ next.cache = ctx.cache := by
  simp only [finish, batchesFor, hctx, bind_ok, pure_ok] at h
  obtain ⟨_, ⟨count, hcount, rfl⟩, h⟩ := h
  obtain ⟨-, rfl⟩ := (batchCount_slices hb).mp hcount
  cases h
  exact ⟨rfl, hctx.symm, rfl⟩

theorem embedSubsetRuns_onnx (hctx : ctx.backendType = .onnx) (r : TextRequest)
    (subset : List Bytes) (batchSize : Int) (out : List ℚ) :
    ctx.embedSubsetRuns r subset batchSize out = r.onnx.onnxEmbedRuns subset batchSize out := by
  rw [embedSubsetRuns, hctx]

/-- What a call leaves: a sound context, and with success the two counts. -/
structure Counted (ctx : TextEmbedding ℚ) (r : TextRequest) (b ran : Nat) (reply : EmbedReply ℚ)
    (next : TextEmbedding ℚ) (k : Nat) : Prop where
  sound : next.Sound
  runs : reply.status = .ok → k = sliceCount (r.onnx.runSize b) ran
  counter : reply.status = .ok → next.batchesRun = ctx.batchesRun + sliceCount b ran

theorem embedThroughRuns_counts {r : TextRequest} {cache : LRUCache Bytes ℚ} {b : Nat}
    (hctx : ctx.Sound) (hb : 0 < b)
    (hcache : ctx.cache = some cache)
    (h : (ctx.embedThroughRuns cache r b data).Ran (reply, next) k) :
    Counted ctx r b (ctx.uncached r) reply next k := by
  simp only [embedThroughRuns, ran_lift_bind] at h
  obtain ⟨split, hsplit, h⟩ := h
  obtain ⟨hrefines, hcount⟩ := lookups_count (hctx.cache cache hcache) hsplit
  have huncached : split.missTexts.length = ctx.uncached r := by
    rw [hcount, uncached]
    simp only [answers, hcache]
  have hsound : ({ ctx with cache := some split.cache
                            cacheHits := split.cacheHits
                            cacheMisses := split.cacheMisses } : TextEmbedding ℚ).Sound :=
    ⟨hctx.backend, fun _ hsome => Option.some.inj hsome ▸ hrefines⟩
  by_cases hnil : split.missTexts = []
  · rw [if_pos hnil, ran_lift] at h
    obtain ⟨hfinish, rfl⟩ := h
    have hzero : ctx.uncached r = 0 := by rw [← huncached, hnil]; rfl
    obtain ⟨hcounter, hbackend, hnext⟩ := finish_counts hb hfinish hsound.backend
    rw [hzero]
    have hsize : 0 < r.onnx.runSize b := by
      unfold OnnxEmbedder.runSize
      split <;> omega
    exact ⟨⟨hbackend.trans hctx.backend, fun c hc => hsound.cache c (hnext ▸ hc)⟩,
      fun _ => (sliceCount_zero hsize).symm,
      fun _ => hcounter⟩
  · rw [if_neg hnil, embedSubsetRuns_onnx hsound.backend] at h
    obtain ⟨outcome, ran, rest, hran, hrest, rfl⟩ := ran_bind.mp h
    cases outcome with
    | threw =>
      obtain ⟨hreply, -⟩ := ran_pure.mp hrest
      cases hreply
      exact ⟨hsound, fun hok => absurd hok (exceptionStatus_ne_ok _),
        fun hok => absurd hok (exceptionStatus_ne_ok _)⟩
    | returned out =>
      obtain ⟨status, missBuf⟩ := out
      have hcountRan := OnnxEmbedder.onnxEmbedRuns_count hb hran
      by_cases hok : status = .ok
      · simp only [if_pos hok, ran_lift_bind, ran_lift] at hrest
        obtain ⟨⟨stored, after⟩, hscatter, hfinish, rfl⟩ := hrest
        have hafter := scatter_refines hrefines hscatter
        obtain ⟨hcounter, hbackend, hnext⟩ := finish_counts hb hfinish hctx.backend
        refine ⟨⟨hbackend.trans hctx.backend, fun c hc => ?_⟩, fun _ => ?_, fun _ => ?_⟩
        · rw [hnext] at hc
          exact Option.some.inj hc ▸ hafter
        · rw [Nat.add_zero, hcountRan, huncached]
        · rw [hcounter, huncached]
      · simp only [if_neg hok, ran_pure] at hrest
        obtain ⟨hreply, -⟩ := hrest
        cases hreply
        exact ⟨hsound, fun hstatus => absurd hstatus hok, fun hstatus => absurd hstatus hok⟩

theorem embedAllRuns_counts {r : TextRequest} {b : Nat}
    (hctx : ctx.Sound) (hb : 0 < b)
    (hcache : ctx.cache = none) (h : (ctx.embedAllRuns r b data).Ran (reply, next) k) :
    Counted ctx r b (ctx.uncached r) reply next k := by
  have huncached : ctx.uncached r = r.texts.length := by
    simp [uncached, answers, hcache]
  rw [embedAllRuns, embedSubsetRuns_onnx hctx.backend] at h
  obtain ⟨outcome, ran, rest, hran, hrest, rfl⟩ := ran_bind.mp h
  cases outcome with
  | threw =>
    obtain ⟨hreply, -⟩ := ran_pure.mp hrest
    cases hreply
    exact ⟨hctx, fun hok => absurd hok (exceptionStatus_ne_ok _),
      fun hok => absurd hok (exceptionStatus_ne_ok _)⟩
  | returned out =>
    obtain ⟨status, matrix⟩ := out
    have hcountRan := OnnxEmbedder.onnxEmbedRuns_count hb hran
    by_cases hok : status = .ok
    · simp only [if_pos hok, ran_lift] at hrest
      obtain ⟨hfinish, rfl⟩ := hrest
      obtain ⟨hcounter, hbackend, hnext⟩ := finish_counts hb hfinish hctx.backend
      refine ⟨⟨hbackend.trans hctx.backend, fun c hc => hctx.cache c (hnext ▸ hc)⟩,
        fun _ => ?_, fun _ => ?_⟩
      · rw [Nat.add_zero, hcountRan, huncached]
      · rw [hcounter, huncached]
    · simp only [if_neg hok, ran_pure] at hrest
      obtain ⟨hreply, -⟩ := hrest
      cases hreply
      exact ⟨hctx, fun hstatus => absurd hstatus hok, fun hstatus => absurd hstatus hok⟩

/-- What a call on texts runs and counts. -/
theorem embedRuns_counts {r : TextRequest} (hctx : ctx.Sound)
    (h : (ctx.embedRuns r).Ran (reply, next) k) :
    Counted ctx r (ctx.callSize r).toNat (ctx.uncached r) reply next k := by
  have hsize : 0 < ctx.callSize r := by
    have := ctx.batchSizePos
    unfold callSize
    split <;> omega
  have hcast : (((ctx.callSize r).toNat : Nat) : Int) = ctx.callSize r :=
    Int.toNat_of_nonneg hsize.le
  have hb : 0 < (ctx.callSize r).toNat := by omega
  rw [embedRuns] at h
  split at h
  · obtain ⟨hreply, -⟩ := ran_pure.mp h
    cases hreply
    exact ⟨hctx, by simp, by simp⟩
  · rw [← hcast] at h
    cases hcache : ctx.cache with
    | none =>
      rw [hcache] at h
      exact embedAllRuns_counts hctx hb hcache h
    | some cache =>
      rw [hcache] at h
      exact embedThroughRuns_counts hctx hb hcache h

end TextEmbedding

-- ---------------------------------------------------------------------------
-- Reranking
-- ---------------------------------------------------------------------------

namespace Reranker

variable {ctx : Reranker} {m : RerankModel} {call : RerankCall} {batchSize : Int}

/-- The cache is a map. -/
def Mapped (cache : Option (LRUCache Bytes ℚ)) : Prop :=
  ∀ c, cache = some c → ∃ s, LRUCache.Refines c s

/-- The cache has a score of the document. -/
def answers (ctx : Reranker) (call : RerankCall) (document : Bytes) : Bool :=
  match ctx.cache with
  | none => false
  | some cache => ((cache.peek call.now (rerankKey call.query document)).bind usable).isSome

/-- How many documents of a call the cache has no score of. -/
def uncached (ctx : Reranker) (call : RerankCall) : Nat :=
  call.documents.countP fun document => !ctx.answers call document

/-- The batch size a call runs with. -/
def callSize (ctx : Reranker) (call : RerankCall) : Int :=
  if call.batchSize ≤ 0 then ctx.batchSize else call.batchSize

theorem foundScore_eq {s : LruMap Bytes (List ℚ)} {cache : LRUCache Bytes ℚ}
    (h : LRUCache.Refines cache s) (hdoc : call.documents[j]? = some document) :
    foundScore call s j = (cache.peek call.now (rerankKey call.query document)).bind usable := by
  have hkey : (keys call)[j]? = some (rerankKey call.query document) := by simp [keys, hdoc]
  rw [foundScore, LruMap.getElem?_touchAll call.now hkey, Option.join_some, LruMap.touchAll_touch,
    h.peek, bind_usable_filter]

theorem countP_range {p : Nat → Bool} {q : α → Bool} {l : List α}
    (h : ∀ i x, l[i]? = some x → p i = q x) : (List.range l.length).countP p = l.countP q := by
  induction l generalizing p with
  | nil => rfl
  | cons x l ih =>
    have hhead : p 0 = q x := h 0 x rfl
    have htail : (List.range l.length).countP (p ∘ Nat.succ) = l.countP q :=
      ih fun i y hy => h (i + 1) y hy
    rw [List.length_cons, List.range_succ_eq_map, List.countP_cons, List.countP_map, htail, hhead,
      List.countP_cons]

theorem length_misses {s : Option (LruMap Bytes (List ℚ))}
    (h : Option.Rel LRUCache.Refines ctx.cache s) :
    (misses call s).length = ctx.uncached call := by
  rw [misses, ← List.countP_eq_length_filter, uncached]
  refine countP_range fun j document hdoc => ?_
  unfold answers found
  cases hcache : ctx.cache with
  | none =>
    rw [hcache] at h
    cases h
    rfl
  | some cache =>
    rw [hcache] at h
    cases h with
    | some hr =>
      rw [Option.bind_some, foundScore_eq hr hdoc]
      cases hhit : (cache.peek call.now (rerankKey call.query document)).bind usable with
      | none => simp [hhit]
      | some score => simp [hhit]

theorem mapped_rel {cache : Option (LRUCache Bytes ℚ)} (h : Mapped cache) :
    ∃ s, Option.Rel LRUCache.Refines cache s := by
  cases cache with
  | none => exact ⟨none, .none⟩
  | some c =>
    obtain ⟨s, hs⟩ := h c rfl
    exact ⟨some s, .some hs⟩

theorem mapped_of_rel {cache : Option (LRUCache Bytes ℚ)} {s : Option (LruMap Bytes (List ℚ))}
    (h : Option.Rel LRUCache.Refines cache s) : Mapped cache := by
  rintro c rfl
  cases h with
  | some hr => exact ⟨_, hr⟩

theorem storeScore_mapped {s t : Scoring} (hs : Mapped s.cache)
    (h : storeScore call s docIdx score = .ok t) : Mapped t.cache := by
  rw [storeScore, bind_ok] at h
  obtain ⟨allScores, -, h⟩ := h
  cases hcache : s.cache with
  | none =>
    rw [hcache] at h
    cases h
    rintro c ⟨⟩
  | some cache =>
    simp only [hcache, bind_ok] at h
    obtain ⟨document, -, after, hput, h⟩ := h
    cases h
    obtain ⟨map, hr⟩ := hs cache hcache
    obtain ⟨after', hput', hr'⟩ := hr.put call.now (rerankKey call.query document) [score]
    cases hput.symm.trans hput'
    rintro c ⟨⟩
    exact ⟨_, hr'⟩

theorem storeRow_mapped {s t : Scoring} (hs : Mapped s.cache)
    (h : storeRow call missIndices start output s i = .ok t) : Mapped t.cache := by
  rw [storeRow, bind_ok] at h
  obtain ⟨docIdx, -, h⟩ := h
  split at h
  · cases h
  · obtain ⟨score, -, h⟩ := bind_ok.mp h
    exact storeScore_mapped hs h

theorem scoreBatch_mapped {s t : Scoring} (hs : Mapped s.cache)
    (h : scoreBatch m call missIndices batchSize s bi = .ok t) : Mapped t.cache := by
  unfold scoreBatch at h
  split at h
  · cases h
    exact hs
  · simp only [bind_ok] at h
    obtain ⟨range, -, pairs, -, h⟩ := h
    split at h
    · cases h
      exact hs
    · obtain ⟨output, -, h⟩ := bind_ok.mp h
      exact forUpTo_invariant (fun _ (s : Scoring) => Mapped s.cache) hs
        (fun _ _ _ _ hs hstep => storeRow_mapped hs hstep) h

/-- A batch that does not throw has run once. -/
theorem scoreBatchRuns_one {s : Scoring}
    (h : (scoreBatchRuns m call missIndices batchSize s bi).Ran t k) (ht : t.threw = false) :
    s.threw = false ∧ k = 1 := by
  unfold scoreBatchRuns at h
  split at h
  · rename_i hthrew
    obtain ⟨rfl, -⟩ := ran_pure.mp h
    cases hthrew.symm.trans ht
  · rename_i hthrew
    refine ⟨by simpa using hthrew, ?_⟩
    simp only [ran_lift_bind] at h
    obtain ⟨range, -, pairs, -, h⟩ := h
    obtain ⟨_, one, more, hone, hmore, rfl⟩ := ran_bind.mp h
    obtain rfl := ran_emit.mp hone
    split at hmore
    · rw [(ran_pure.mp hmore).2]
    · simp only [ran_lift_bind, ran_lift] at hmore
      obtain ⟨_, _, _, rfl⟩ := hmore
      rfl

theorem scoreMissesRuns_counts {b : Nat} (honnx : m.backendType = .onnx) (hb : 0 < b)
    {s t : Scoring} (hs : Mapped s.cache)
    (h : (scoreMissesRuns m call missIndices b s).Ran t k) :
    Mapped t.cache ∧ (t.threw = false → k = sliceCount b missIndices.length) := by
  unfold scoreMissesRuns at h
  split at h
  · rename_i hnil
    obtain ⟨rfl, rfl⟩ := ran_pure.mp h
    refine ⟨hs, fun _ => ?_⟩
    rw [hnil, List.length_nil, sliceCount_zero hb]
  · rw [honnx, ran_lift_bind] at h
    obtain ⟨numBatches, hcount, hloop⟩ := h
    obtain ⟨-, rfl⟩ := (batchCount_slices hb).mp hcount
    constructor
    · have hresult := hloop.1
      simp only [result_forUpTo, result_scoreBatchRuns] at hresult
      exact forUpTo_invariant (fun _ (s : Scoring) => Mapped s.cache) hs
        (fun _ _ _ _ hs hstep => scoreBatch_mapped hs hstep) hresult
    · intro ht
      exact hloop.forUpTo (fun s => s.threw = false)
        (fun _ _ _ _ hstep ht => scoreBatchRuns_one hstep ht) ht

/-- What a call leaves: a mapped cache, and with success the two counts. -/
structure Counted (ctx : Reranker) (b n ran : Nat) (reply : RerankReply) (next : Reranker)
    (k : Nat) : Prop where
  mapped : Mapped next.cache
  runs : reply.status = .ok → k = sliceCount b ran
  counter : reply.status = .ok → next.batchesRun = ctx.batchesRun + sliceCount b n

theorem splitDocuments_counter {split : List ℚ × List Nat × Reranker}
    (h : ctx.splitDocuments call = .ok split) : split.2.2.batchesRun = ctx.batchesRun := by
  unfold splitDocuments at h
  dsimp only at h
  split at h
  · cases h
    rfl
  · obtain ⟨s, -, h⟩ := bind_ok.mp h
    cases h
    rfl

/-- What a call on documents runs and counts. -/
theorem rerankRuns_counts (honnx : m.backendType = .onnx) (hctx : Mapped ctx.cache)
    (h : (rerankRuns m call ctx).Ran (reply, next) k) :
    Counted ctx (ctx.callSize call).toNat call.documents.length (ctx.uncached call) reply next
      k := by
  have hsize : 0 < ctx.callSize call := by
    have := ctx.batchSizePos
    unfold callSize
    split <;> omega
  have hcast : (((ctx.callSize call).toNat : Nat) : Int) = ctx.callSize call :=
    Int.toNat_of_nonneg hsize.le
  have hb : 0 < (ctx.callSize call).toNat := by omega
  have hcall : (if call.batchSize ≤ 0 then ctx.batchSize else call.batchSize) =
    ((ctx.callSize call).toNat : Nat) := hcast.symm
  obtain ⟨map, hrel⟩ := mapped_rel hctx
  obtain ⟨allScores, ctx₁, hsplit, -, -, -, hrel₁⟩ := splitDocuments_inv call hrel
  have hcounter : ctx₁.batchesRun = ctx.batchesRun := splitDocuments_counter hsplit
  unfold rerankRuns at h
  dsimp only at h
  split at h
  · obtain ⟨hreply, -⟩ := ran_pure.mp h
    cases hreply
    exact ⟨hctx, by simp, by simp⟩
  · rw [hcall, ran_lift_bind] at h
    obtain ⟨_, hsplit', h⟩ := h
    cases hsplit.symm.trans hsplit'
    obtain ⟨s, ran, rest, hscore, hrest, rfl⟩ := ran_bind.mp h
    obtain ⟨hmapped, hruns⟩ := scoreMissesRuns_counts honnx hb (mapped_of_rel hrel₁) hscore
    rw [length_misses hrel] at hruns
    split at hrest
    · obtain ⟨hreply, -⟩ := ran_pure.mp hrest
      cases hreply
      exact ⟨hmapped, by simp, by simp⟩
    · rename_i hthrew
      simp only [ran_lift_bind, ran_pure] at hrest
      obtain ⟨items, -, count, hcount, hreply, rfl⟩ := hrest
      obtain ⟨-, rfl⟩ := (batchCount_slices hb).mp hcount
      cases hreply
      refine ⟨hmapped, fun _ => hruns (by simpa using hthrew), fun _ => ?_⟩
      show ctx₁.batchesRun + _ = _
      rw [hcounter, Int.toNat_natCast]

end Reranker

-- ---------------------------------------------------------------------------
-- Images
-- ---------------------------------------------------------------------------

namespace ImageModel

variable {m : ImageModel} {batchSize : Int} {result : Outcome (List ℚ)}

theorem runBatchRuns_one (h : (m.runBatchRuns load n batchSize bi).Ran t k) (ht : t ≠ .threw) :
    k = 1 := by
  simp only [runBatchRuns, ran_lift_bind] at h
  obtain ⟨range, -, filled, -, h⟩ := h
  cases filled with
  | threw =>
    obtain ⟨rfl, -⟩ := ran_pure.mp h
    exact absurd rfl ht
  | returned batchData =>
    obtain ⟨name, -, hname⟩ := ran_lift_bind.mp h
    obtain ⟨_, one, more, hone, hmore, rfl⟩ := ran_bind.mp hname
    obtain rfl := ran_emit.mp hone
    split at hmore
    · rw [(ran_pure.mp hmore).2]
    · simp only [ran_lift_bind, ran_pure] at hmore
      obtain ⟨_, _, _, rfl⟩ := hmore
      rfl

theorem embedBatchRuns_one {s : Outcome (List ℚ × Nat)}
    (h : (m.embedBatchRuns dim outDim load n batchSize s bi).Ran t k) (ht : t ≠ .threw) :
    s ≠ .threw ∧ k = 1 := by
  cases s with
  | threw =>
    obtain ⟨rfl, -⟩ := ran_pure.mp h
    exact absurd rfl ht
  | returned s =>
    refine ⟨by simp, ?_⟩
    rw [embedBatchRuns] at h
    obtain ⟨outcome, i, j, hrun, hrest, rfl⟩ := ran_bind.mp h
    cases outcome with
    | threw =>
      obtain ⟨rfl, -⟩ := ran_pure.mp hrest
      exact absurd rfl ht
    | returned out =>
      simp only [ran_lift_bind, ran_pure] at hrest
      obtain ⟨_, _, _, rfl⟩ := hrest
      rw [runBatchRuns_one hrun (by simp)]

theorem embedBatchesRuns_count {b : Nat} (hb : 0 < b)
    (h : (m.embedBatchesRuns dim outDim load n b).Ran (result, count) k) :
    count = sliceCount b n ∧ (result ≠ .threw → k = sliceCount b n) := by
  simp only [embedBatchesRuns, ran_lift_bind] at h
  obtain ⟨numBatches, hcount, h⟩ := h
  obtain ⟨-, rfl⟩ := (batchCount_slices hb).mp hcount
  obtain ⟨final, i, j, hloop, hrest, rfl⟩ := ran_bind.mp h
  cases final with
  | threw =>
    obtain ⟨hpair, -⟩ := ran_pure.mp hrest
    cases hpair
    exact ⟨Int.toNat_natCast _, fun hne => absurd rfl hne⟩
  | returned final =>
    obtain ⟨hpair, rfl⟩ := ran_pure.mp hrest
    cases hpair
    refine ⟨Int.toNat_natCast _, fun _ => ?_⟩
    exact hloop.forUpTo (· ≠ .threw) (fun _ _ _ _ hstep ht => embedBatchRuns_one hstep ht) (by simp)

end ImageModel

namespace ImageEmbedding

variable {ctx : ImageEmbedding} {m : ImageModel} {batchSize : Int} {answer : EmbedReply ℚ}

/-- A successful call on files runs, and counts nothing. -/
theorem embedFilesRuns_counts (h : (ctx.embedFilesRuns m paths batchSize).Ran (answer, next) k)
    (hok : answer.status = .ok) : next.batchesRun = ctx.batchesRun ∧ 0 < k := by
  have hsize := ctx.callSize_pos batchSize
  have hcast : (((ctx.callSize batchSize).toNat : Nat) : Int) = ctx.callSize batchSize :=
    Int.toNat_of_nonneg hsize.le
  rw [embedFilesRuns] at h
  split at h
  · obtain ⟨hreply, -⟩ := ran_pure.mp h
    cases hreply
    cases hok
  · obtain ⟨⟨result, count⟩, i, j, hbatches, hrest, rfl⟩ := ran_bind.mp h
    obtain ⟨hreply, rfl⟩ := ran_pure.mp hrest
    cases hreply
    rw [← hcast] at hbatches
    obtain ⟨-, hruns⟩ := ImageModel.embedBatchesRuns_count (by omega) hbatches
    refine ⟨rfl, ?_⟩
    cases result with
    | threw => cases hok
    | returned data =>
      rw [Nat.add_zero, hruns nofun]
      exact sliceCount_pos (by omega) (by omega)

/-- A successful call on bytes counts what it runs. -/
theorem embedBytesRuns_counts (h : (ctx.embedBytesRuns m images batchSize).Ran (answer, next) k)
    (hok : answer.status = .ok) : next.batchesRun = ctx.batchesRun + k := by
  have hsize := ctx.callSize_pos batchSize
  have hcast : (((ctx.callSize batchSize).toNat : Nat) : Int) = ctx.callSize batchSize :=
    Int.toNat_of_nonneg hsize.le
  rw [embedBytesRuns] at h
  split at h
  · obtain ⟨hreply, -⟩ := ran_pure.mp h
    cases hreply
    cases hok
  · obtain ⟨⟨result, count⟩, i, j, hbatches, hrest, rfl⟩ := ran_bind.mp h
    rw [← hcast] at hbatches
    obtain ⟨rfl, hruns⟩ := ImageModel.embedBatchesRuns_count (by omega) hbatches
    cases result with
    | threw =>
      obtain ⟨hreply, -⟩ := ran_pure.mp hrest
      cases hreply
      cases hok
    | returned data =>
      obtain ⟨hreply, rfl⟩ := ran_pure.mp hrest
      cases hreply
      rw [Nat.add_zero, hruns nofun]
      rfl

end ImageEmbedding

-- ---------------------------------------------------------------------------
-- Sequences of calls
-- ---------------------------------------------------------------------------

/-- The contexts of a process, under handles. -/
structure Contexts where
  texts : Nat → TextEmbedding ℚ
  rerankers : Nat → Reranker
  images : Nat → ImageEmbedding

/-- The ONNX contexts whose caches are maps. -/
structure Contexts.Sound (w : Contexts) : Prop where
  texts : ∀ h, (w.texts h).Sound
  rerankers : ∀ h, Reranker.Mapped (w.rerankers h).cache

structure RerankRequest where
  model : RerankModel
  onnx : model.backendType = .onnx
  call : RerankCall

inductive InferenceCall where
  | text (handle : Nat) (r : TextRequest)
  | rerank (handle : Nat) (r : RerankRequest)
  | imageFiles (handle : Nat) (m : ImageModel) (paths : List Bytes) (batchSize : Int)
  | imageBytes (handle : Nat) (m : ImageModel) (images : List Bytes) (batchSize : Int)

namespace InferenceCall

def run : InferenceCall → Contexts → Runs (Status × Contexts)
  | .text h r, w => do
    let (reply, ctx) ← (w.texts h).embedRuns r
    return (reply.status, { w with texts := Function.update w.texts h ctx })
  | .rerank h r, w => do
    let (reply, ctx) ← Reranker.rerankRuns r.model r.call (w.rerankers h)
    return (reply.status, { w with rerankers := Function.update w.rerankers h ctx })
  | .imageFiles h m paths batchSize, w => do
    let (reply, ctx) ← (w.images h).embedFilesRuns m paths batchSize
    return (reply.status, { w with images := Function.update w.images h ctx })
  | .imageBytes h m images batchSize, w => do
    let (reply, ctx) ← (w.images h).embedBytesRuns m images batchSize
    return (reply.status, { w with images := Function.update w.images h ctx })

/-- `batches_run` of the context of a call. -/
def counter : InferenceCall → Contexts → Nat
  | .text h _, w => (w.texts h).batchesRun
  | .rerank h _, w => (w.rerankers h).batchesRun
  | .imageFiles h .., w => (w.images h).batchesRun
  | .imageBytes h .., w => (w.images h).batchesRun

/-- The batches a call counts are those it runs: texts one by one are as many as their
batches, and the documents without a score take as many batches as all of them. -/
def Accounted : InferenceCall → Contexts → Prop
  | .text h r, w => r.onnx.batchStrategy ≠ .sequential ∨ (w.texts h).uncached r ≤ 1 ∨
      (w.texts h).callSize r = 1
  | .rerank h r, w => sliceCount ((w.rerankers h).callSize r.call).toNat
      ((w.rerankers h).uncached r.call) =
        sliceCount ((w.rerankers h).callSize r.call).toNat r.call.documents.length
  | .imageFiles .., _ => False
  | .imageBytes .., _ => True

end InferenceCall

theorem sliceCount_one (n : Nat) : sliceCount 1 n = n := by
  rw [sliceCount, Nat.div_one, Nat.add_sub_cancel]

/-- As many batches as items. -/
theorem sliceCount_eq_self {b n : Nat} (hb : 0 < b) : sliceCount b n = n ↔ n ≤ 1 ∨ b = 1 := by
  constructor
  · intro h
    by_contra hnone
    push Not at hnone
    obtain ⟨m, rfl⟩ : ∃ m, n = m + 2 := ⟨n - 2, by omega⟩
    obtain ⟨c, rfl⟩ : ∃ c, b = c + 2 := ⟨b - 2, by omega⟩
    have hlt : sliceCount (c + 2) (m + 2) < m + 2 := by
      refine Nat.div_lt_of_lt_mul ?_
      have : (c + 2) * (m + 2) = (m + 2 + (c + 2) - 1) + (c * m + c + m + 1) := by
        have : m + 2 + (c + 2) - 1 = m + c + 3 := by omega
        rw [this]
        ring
      omega
    omega
  · rintro (hn | rfl)
    · rcases Nat.lt_or_ge 0 n with hpos | hzero
      · obtain rfl : n = 1 := by omega
        rw [sliceCount_step hb hpos, Nat.sub_eq_zero_of_le hb, sliceCount_zero hb]
      · obtain rfl : n = 0 := by omega
        exact sliceCount_zero hb
    · exact sliceCount_one n

theorem runSize_eq (e : OnnxEmbedder) {b n : Nat} (hb : 0 < b) :
    sliceCount b n = sliceCount (e.runSize b) n ↔
      e.batchStrategy ≠ .sequential ∨ n ≤ 1 ∨ b = 1 := by
  unfold OnnxEmbedder.runSize
  by_cases hseq : e.batchStrategy = .sequential
  · rw [if_pos hseq, sliceCount_one, sliceCount_eq_self hb]
    simp [hseq]
  · rw [if_neg hseq]
    simp [hseq]

/-- One call: its contexts stay sound, and if it succeeds its counter is right exactly when
the call is accounted for. -/
theorem InferenceCall.run_counts (call : InferenceCall) {w next : Contexts} (hw : w.Sound)
    (h : (call.run w).Ran (status, next) k) : next.Sound ∧ (status = .ok →
      (call.counter next = call.counter w + k ↔ call.Accounted w)) := by
  cases call with
  | text handle r =>
    obtain ⟨⟨reply, ctx⟩, i, j, hcall, hrest, rfl⟩ := ran_bind.mp h
    obtain ⟨hpair, rfl⟩ := ran_pure.mp hrest
    cases hpair
    obtain ⟨hsound, hruns, hcounter⟩ := TextEmbedding.embedRuns_counts (hw.texts handle) hcall
    refine ⟨⟨fun other => ?_, hw.rerankers⟩, fun hok => ?_⟩
    · by_cases hother : other = handle
      · subst hother
        simpa using hsound
      · simpa [hother] using hw.texts other
    · have hsize : 0 < (w.texts handle).callSize r := by
        have := (w.texts handle).batchSizePos
        unfold TextEmbedding.callSize
        split <;> omega
      have hone : ((w.texts handle).callSize r).toNat = 1 ↔ (w.texts handle).callSize r = 1 := by
        omega
      simp only [counter, Function.update_self, Accounted, hruns hok, hcounter hok, Nat.add_zero]
      rw [Nat.add_left_cancel_iff, runSize_eq r.onnx (by omega), hone]
  | rerank handle r =>
    obtain ⟨⟨reply, ctx⟩, i, j, hcall, hrest, rfl⟩ := ran_bind.mp h
    obtain ⟨hpair, rfl⟩ := ran_pure.mp hrest
    cases hpair
    obtain ⟨hmapped, hruns, hcounter⟩ :=
      Reranker.rerankRuns_counts r.onnx (hw.rerankers handle) hcall
    refine ⟨⟨hw.texts, fun other => ?_⟩, fun hok => ?_⟩
    · by_cases hother : other = handle
      · subst hother
        simpa using hmapped
      · simpa [hother] using hw.rerankers other
    · simp only [counter, Function.update_self, Accounted, hruns hok, hcounter hok, Nat.add_zero]
      rw [Nat.add_left_cancel_iff, eq_comm]
  | imageFiles handle m paths batchSize =>
    obtain ⟨⟨reply, ctx⟩, i, j, hcall, hrest, rfl⟩ := ran_bind.mp h
    obtain ⟨hpair, rfl⟩ := ran_pure.mp hrest
    cases hpair
    refine ⟨⟨hw.texts, hw.rerankers⟩, fun hok => ?_⟩
    obtain ⟨hcounter, hpos⟩ := ImageEmbedding.embedFilesRuns_counts hcall hok
    simp only [counter, Function.update_self, Accounted, hcounter, iff_false]
    omega
  | imageBytes handle m images batchSize =>
    obtain ⟨⟨reply, ctx⟩, i, j, hcall, hrest, rfl⟩ := ran_bind.mp h
    obtain ⟨hpair, rfl⟩ := ran_pure.mp hrest
    cases hpair
    refine ⟨⟨hw.texts, hw.rerankers⟩, fun hok => ?_⟩
    simp only [counter, Function.update_self, Accounted,
      ImageEmbedding.embedBytesRuns_counts hcall hok, Nat.add_zero]

/-- A call that came back. -/
structure CallRecord where
  call : InferenceCall
  before : Contexts
  status : Status
  runs : Nat
  after : Contexts

/-- The calls of a sequence that came back. -/
def callRecords : List InferenceCall → Contexts → List CallRecord
  | [], _ => []
  | call :: calls, w =>
    match (call.run w).result with
    | .error _ => []
    | .ok (status, next) =>
      ⟨call, w, status, (call.run w).log.length, next⟩ :: callRecords calls next

/-- Every successful call of a sequence increases its counter by the runs it executed. -/
def CountsRuns (calls : List InferenceCall) (w : Contexts) : Prop :=
  ∀ c ∈ callRecords calls w, c.status = .ok → c.call.counter c.after = c.call.counter c.before + c.runs

theorem callRecords_counts {calls : List InferenceCall} {w : Contexts} (hw : w.Sound) :
    ∀ c ∈ callRecords calls w, c.status = .ok →
      (c.call.counter c.after = c.call.counter c.before + c.runs ↔ c.call.Accounted c.before) := by
  induction calls generalizing w with
  | nil =>
    intro c hc
    cases hc
  | cons call calls ih =>
    intro c hc hok
    rw [callRecords] at hc
    cases hrun : (call.run w).result with
    | error fault =>
      rw [hrun] at hc
      cases hc
    | ok out =>
      obtain ⟨status, next⟩ := out
      rw [hrun] at hc
      have hran : (call.run w).Ran (status, next) (call.run w).log.length := ⟨hrun, rfl⟩
      obtain ⟨hsound, hcounts⟩ := call.run_counts hw hran
      rcases List.mem_cons.mp hc with rfl | htail
      · exact hcounts hok
      · exact ih hsound c htail hok

/-- **`batches_run` increases by the runs of every successful call exactly when** each of them
is accounted for. -/
theorem countsRuns_iff (calls : List InferenceCall) (w : { w : Contexts // w.Sound }) :
    CountsRuns calls w ↔
      ∀ c ∈ callRecords calls w, c.status = .ok → c.call.Accounted c.before := by
  constructor
  · intro h c hc hok
    exact (callRecords_counts w.property c hc hok).mp (h c hc hok)
  · intro h c hc hok
    exact (callRecords_counts w.property c hc hok).mpr (h c hc hok)

/-- Contexts as the creators make them, all alike. -/
def created (dim : Nat) (dimPos : 0 < dim) (batchSize cacheSize : Int) : Contexts where
  texts _ := .create .onnx dim batchSize cacheSize
  rerankers _ := .create batchSize cacheSize
  images _ := .create dim dimPos batchSize

theorem created_sound (dim : Nat) (dimPos : 0 < dim) (batchSize cacheSize : Int) :
    (created dim dimPos batchSize cacheSize).Sound where
  texts _ := by
    refine ⟨rfl, fun cache hcache => ?_⟩
    simp only [created, TextEmbedding.create, Option.ite_none_right_eq_some,
      Option.some.injEq] at hcache
    obtain ⟨-, rfl⟩ := hcache
    exact ⟨_, .empty _ 0⟩
  rerankers _ cache hcache := by
    simp only [created, Reranker.create, Option.ite_none_right_eq_some,
      Option.some.injEq] at hcache
    obtain ⟨-, rfl⟩ := hcache
    exact ⟨_, .empty _ 0⟩

/-- A model with one output, embedding texts one by one. -/
def oneByOne : OnnxEmbedder where
  tokenizer := .new
  session := ⟨fun _ => 0, fun batch _ => .returned
    [⟨List.replicate batch.batch 1, [batch.batch, 1], by simp⟩]⟩
  outputKey := []
  pooling := .cls
  batchStrategy := .sequential
  dim := 1
  pooledBuf := []
  sqrt := id
  sorter := insertionImpl

/-- A context that embeds two texts. -/
def twoTexts : List InferenceCall :=
  [.text 0 ⟨[ascii "a", ascii "b"], 0, 0, oneByOne, ⟨fun _ => .threw, 1, id⟩⟩]

/-- Two texts one by one: two runs, counted as one batch. -/
theorem twoTexts_not_countsRuns : ¬CountsRuns twoTexts (created 1 Nat.one_pos 0 0) := by
  have hrecords : (callRecords twoTexts (created 1 Nat.one_pos 0 0)).map
      (fun c => (c.status, c.call.counter c.before, c.call.counter c.after, c.runs)) =
        [(.ok, 0, 1, 2)] := by
    decide +kernel
  intro h
  obtain ⟨c, hc, hfields⟩ := List.mem_map.mp (hrecords ▸ List.mem_singleton_self _)
  simp only [Prod.mk.injEq] at hfields
  obtain ⟨hok, hbefore, hafter, hruns⟩ := hfields
  have := h c hc hok
  omega

end LibEmbedding
