import LibEmbedding.RerankerCache

/-!
# When the reranker cache is transparent

Two runs of one history, with the cache and without it. `rerankKey` joins the query
and the document with a newline, which either may hold, so two pairs can share a key.
The runs agree for every model exactly when no such pairs with different tokens
follow each other.
-/

namespace LibEmbedding

open Foundation

namespace Reranker

/-- Where both calls return scores, each index has the same one. -/
def SameScores (a b : RerankReply) : Prop :=
  a.status = .ok → b.status = .ok → ∀ r, r ∈ a.items.getD [] ↔ r ∈ b.items.getD []

/-- For every model with a pure score and every capacity, both runs of a history
agree. -/
def Transparent (tokenizer : TokenizerWrapper) (batchSize : Int) (calls : List RerankCall) : Prop :=
  ∀ (m : RerankModel) (score : Bytes → ℚ) (cacheSize : Int) (replies replies' : List RerankReply)
    (ctx ctx' : Reranker), m.backendType = .onnx → m.tokenizer = tokenizer → Scores m score →
    run m calls (create batchSize cacheSize) = .ok (replies, ctx) →
    run m calls (create batchSize 0) = .ok (replies', ctx') →
    List.Forall₂ SameScores replies replies'

/-- Pairs of the two calls with one key have one encoding. -/
def KeysAgree (tokenizer : TokenizerWrapper) (c call : RerankCall) : Prop :=
  ∀ d ∈ c.documents, ∀ d' ∈ call.documents, rerankKey c.query d = rerankKey call.query d' →
    tokenizer.encode (pairText c.query d) = tokenizer.encode (pairText call.query d')

/-- In a history whose batch counts are all `int`s, each call agrees with the calls
before it. -/
def Unambiguous (tokenizer : TokenizerWrapper) (batchSize : Int) (calls : List RerankCall) : Prop :=
  (∀ call ∈ calls, Fits (create batchSize 0).batchSize call) → calls.Pairwise (KeysAgree tokenizer)

-- ---------------------------------------------------------------------------
-- Scores of tokens
-- ---------------------------------------------------------------------------

theorem pairBatch_congr {tokenizer : TokenizerWrapper} {pairs pairs' : List Bytes}
    (h : pairs.map tokenizer.encode = pairs'.map tokenizer.encode) :
    pairBatch tokenizer pairs = pairBatch tokenizer pairs' := by
  have hlen : pairs.length = pairs'.length := by simpa using congrArg List.length h
  simp only [pairBatch, TokenizerWrapper.encodeBatch_congr h, hlen]

/-- A session sees the tokens only, so the score of a text is a function of them. -/
theorem Scores.factor {m : RerankModel} (h : Scores m score) :
    ∃ f : List Int → ℚ, Scores m fun text => f (m.tokenizer.encode text) := by
  classical
  let f : List Int → ℚ := fun ids =>
    if hex : ∃ text, m.tokenizer.encode text = ids then score hex.choose else 0
  refine ⟨f, fun pairs outputs hrun => ?_⟩
  obtain ⟨output, back, hout, hback, -⟩ := h pairs outputs hrun
  refine ⟨output, back, hout, hback, fun i text hi => ?_⟩
  obtain ⟨hlt, hget⟩ := List.getElem?_eq_some_iff.mp hi
  have hex : ∃ other, m.tokenizer.encode other = m.tokenizer.encode text := ⟨text, rfl⟩
  -- The batch with the chosen text in the place of this one has the same inputs.
  have hsame : pairBatch m.tokenizer (pairs.set i hex.choose) = pairBatch m.tokenizer pairs := by
    apply pairBatch_congr
    rw [List.map_set, hex.choose_spec]
    apply List.ext_getElem?
    intro k
    rw [List.getElem?_set]
    split
    · rename_i hk
      subst hk
      simp [hlt, hget]
    · rfl
  obtain ⟨output', back', hout', hback', hdata⟩ := h _ outputs (hsame ▸ hrun)
  cases hout.symm.trans hout'
  cases hback.symm.trans hback'
  simp only [f, dif_pos hex]
  exact hdata i _ (by simp [hlt])

-- ---------------------------------------------------------------------------
-- What the cache knows
-- ---------------------------------------------------------------------------

/-- A value is the score of a pair of an earlier call under its key. -/
def Known (score : Bytes → ℚ) (earlier : List RerankCall) (key : Bytes) (v : List ℚ) : Prop :=
  ∃ c ∈ earlier, ∃ d ∈ c.documents, rerankKey c.query d = key ∧ v = [score (pairText c.query d)]

theorem Known.mono {earlier : List RerankCall} (h : Known score earlier key v) (call : RerankCall) :
    Known score (earlier ++ [call]) key v := by
  obtain ⟨c, hc, rest⟩ := h
  exact ⟨c, List.mem_append_left _ hc, rest⟩

theorem getD_mem {call : RerankCall} (hj : j < call.documents.length) :
    call.documents.getD j [] ∈ call.documents := by
  rw [List.getD_eq_getElem?_getD, List.getElem?_eq_getElem hj]
  exact List.getElem_mem hj

theorem known_entryAt {earlier : List RerankCall} (hj : j < call.documents.length) :
    Known score (earlier ++ [call]) (entryAt score call j).1 (entryAt score call j).2 :=
  ⟨call, by simp, _, getD_mem hj, rfl, rfl⟩

theorem afterCall_known {earlier : List RerankCall} {s : LruMap Bytes (List ℚ)}
    (h : s.Holds (Known score earlier)) (p : Nat) :
    (afterCall score call p s).Holds (Known score (earlier ++ [call])) := by
  have htouched := (h.touchAll call.now (keys call)).1
  refine LruMap.Holds.putAll (fun e he => (htouched e he).mono call) call.now fun e he => ?_
  obtain ⟨j, hj, rfl⟩ := List.mem_map.mp he
  exact known_entryAt (misses_lt j (List.mem_of_mem_take hj))

/-- A found score is what some entry holds under the key. -/
theorem foundScore_holds {P : Bytes → List ℚ → Prop} {s : LruMap Bytes (List ℚ)} (h : s.Holds P)
    (hj : j < call.documents.length) (hv : foundScore call s j = some v) :
    P (rerankKey call.query (call.documents.getD j [])) [v] := by
  have hkey : (keys call)[j]? = some (rerankKey call.query (call.documents.getD j [])) := by
    simp [keys, List.getD_eq_getElem?_getD, List.getElem?_eq_getElem hj]
  obtain ⟨w, hw, husable⟩ := Option.bind_eq_some_iff.mp hv
  have hholds := (h.touchAll call.now (keys call)).2 j _ w hkey (Option.join_eq_some_iff.mp hw)
  unfold usable at husable
  split at husable
  · cases husable
    exact hholds
  · cases husable

/-- A found score is that of an earlier pair with the same key. -/
theorem foundScore_known {earlier : List RerankCall} {s : LruMap Bytes (List ℚ)}
    (h : s.Holds (Known score earlier)) (hj : j < call.documents.length)
    (hv : foundScore call s j = some v) : ∃ c ∈ earlier, ∃ d ∈ c.documents,
      rerankKey c.query d = rerankKey call.query (call.documents.getD j []) ∧
        v = score (pairText c.query d) := by
  obtain ⟨c, hc, d, hd, hkey, hscore⟩ := foundScore_holds h hj hv
  exact ⟨c, hc, d, hd, hkey, (List.cons.inj hscore).1⟩

-- ---------------------------------------------------------------------------
-- Two runs
-- ---------------------------------------------------------------------------

theorem rerank_nil {m : RerankModel} (ctx : Reranker) (h : call.documents = []) :
    ctx.rerank m call = .ok (⟨.invalidArgument, none⟩, ctx) := by
  simp only [rerank, h, List.length_nil, if_pos]
  rfl

theorem run_cons {m : RerankModel} {ctx : Reranker} :
    run m (call :: calls) ctx = .ok (replies, out) ↔ ∃ reply ctx₁ rest,
      ctx.rerank m call = .ok (reply, ctx₁) ∧ run m calls ctx₁ = .ok (rest, out) ∧
        replies = reply :: rest := by
  simp only [run, bind_ok, pure_ok, Prod.exists, Prod.mk.injEq]
  constructor
  · rintro ⟨reply, ctx₁, hcall, rest, out', hrest, rfl, rfl⟩
    exact ⟨reply, ctx₁, rest, hcall, hrest, rfl⟩
  · rintro ⟨reply, ctx₁, rest, hcall, hrest, rfl⟩
    exact ⟨reply, ctx₁, hcall, rest, out, hrest, rfl, rfl⟩

theorem none_of_rel {cache : Option (LRUCache Bytes ℚ)}
    (h : Option.Rel LRUCache.Refines cache none) : cache = none := by
  cases h
  rfl

/-- A call without a cache counts the batches of all its documents. -/
theorem fits_of_plain {m : RerankModel} {ctx : Reranker} (honnx : m.backendType = .onnx)
    (hc : ctx.cache = none) (h : ctx.rerank m call = .ok out) : Fits ctx.batchSize call := by
  by_cases hdocs : call.documents = []
  · exact .inl hdocs
  have hlen : call.documents.length ≠ 0 := by simpa using hdocs
  have hrange : List.range call.documents.length ≠ [] := by simpa using hdocs
  have heff : (if call.batchSize ≤ 0 then ctx.batchSize else call.batchSize) =
      effectiveBatch ctx.batchSize call := rfl
  simp only [rerank, if_neg hlen, splitDocuments, hc, pure, Except.pure, ok_bind, scoreMisses,
    if_neg hrange, honnx, scoreOnnx, heff, List.length_range] at h
  rw [bind_ok] at h
  obtain ⟨st, hscore, -⟩ := h
  obtain ⟨count, hcount, -⟩ := bind_ok.mp hscore
  exact .inr ((batchCount_ok (Int.natCast_nonneg _) (effectiveBatch_pos ctx call)).mp hcount).1

/-- With one encoding for each key, what a call finds is what it would compute. -/
theorem scored_eq {earlier : List RerankCall} {tokenizer : TokenizerWrapper}
    (hpure : ∀ text text', tokenizer.encode text = tokenizer.encode text' →
      score text = score text')
    (hknown : ∀ s₁ ∈ s, s₁.Holds (Known score earlier))
    (hagree : ∀ c ∈ earlier, KeysAgree tokenizer c call) :
    scored score call s = scored score call none := by
  refine List.map_congr_left fun j hj => ?_
  have hj := List.mem_range.mp hj
  cases s with
  | none => rfl
  | some s₁ =>
    cases hf : found call (some s₁) j with
    | none => rfl
    | some v =>
      obtain ⟨c, hc, d, hd, hkey, rfl⟩ := foundScore_known (hknown s₁ rfl) hj hf
      rw [Option.getD_some]
      exact congrArg _ (hpure _ _ (hagree c hc d hd _ (getD_mem hj) hkey))

theorem run_sameScores {m : RerankModel} (honnx : m.backendType = .onnx) (hscore : Scores m score)
    (hpure : ∀ text text', m.tokenizer.encode text = m.tokenizer.encode text' →
      score text = score text') {ctx ctx' : Reranker} {earlier : List RerankCall}
    (hcache : Option.Rel LRUCache.Refines ctx.cache s)
    (hknown : ∀ s₁ ∈ s, s₁.Holds (Known score earlier))
    (hplain : ctx'.cache = none) (hbatch : ctx.batchSize = ctx'.batchSize)
    (hagree : (earlier ++ calls).Pairwise (KeysAgree m.tokenizer))
    (hrun : run m calls ctx = .ok (replies, out))
    (hrun' : run m calls ctx' = .ok (replies', out')) :
    List.Forall₂ SameScores replies replies' := by
  induction calls generalizing ctx ctx' earlier s replies replies' with
  | nil =>
    simp only [run, Except.ok.injEq, Prod.mk.injEq] at hrun hrun'
    rw [← hrun.1, ← hrun'.1]
    exact .nil
  | cons call calls ih =>
    obtain ⟨reply, ctx₁, rest, hcall, hrest, rfl⟩ := run_cons.mp hrun
    obtain ⟨reply', ctx₁', rest', hcall', hrest', rfl⟩ := run_cons.mp hrun'
    have hagree' : ((earlier ++ [call]) ++ calls).Pairwise (KeysAgree m.tokenizer) := by
      simpa using hagree
    by_cases hdocs : call.documents = []
    · cases (rerank_nil ctx hdocs).symm.trans hcall
      cases (rerank_nil ctx' hdocs).symm.trans hcall'
      refine .cons (fun h => by simp at h) (ih hcache ?_ hplain hbatch hagree' hrest hrest')
      exact fun s₁ hs e he => (hknown s₁ hs e he).mono call
    · have hfits := fits_of_plain honnx hplain hcall'
      obtain ⟨reply₁, out₁, p, heq, hkeep, hrel, hok, -⟩ :=
        rerank_spec honnx hscore hcache hdocs (hbatch ▸ hfits)
      cases heq.symm.trans hcall
      obtain ⟨reply₂, out₂, q, heq', hkeep', hrel', hok', -⟩ :=
        rerank_spec (s := none) honnx hscore (hplain ▸ .none) hdocs hfits
      cases heq'.symm.trans hcall'
      have hbefore : ∀ c ∈ earlier, KeysAgree m.tokenizer c call := fun c hc =>
        (List.pairwise_append.mp hagree).2.2 c hc call List.mem_cons_self
      have hsame : SameScores reply reply' := by
        intro hst hst' r
        obtain ⟨-, items, hitems, hperm, -⟩ := hok hst
        obtain ⟨-, items', hitems', hperm', -⟩ := hok' hst'
        rw [hitems, hitems', Option.getD_some, Option.getD_some, hperm.mem_iff, hperm'.mem_iff,
          scored_eq hpure hknown hbefore]
      refine .cons hsame (ih hrel ?_ (none_of_rel hrel') (hkeep.trans (hbatch.trans hkeep'.symm))
        hagree' hrest hrest')
      intro s₁ hs
      obtain ⟨s₀, hs₀, rfl⟩ := Option.map_eq_some_iff.mp hs
      exact afterCall_known (hknown s₀ hs₀) p

theorem fits_of_run {m : RerankModel} {ctx : Reranker} (honnx : m.backendType = .onnx)
    (hscore : Scores m score) (hplain : ctx.cache = none)
    (hrun : run m calls ctx = .ok (replies, out)) : ∀ call ∈ calls, Fits ctx.batchSize call := by
  induction calls generalizing ctx replies with
  | nil => simp
  | cons call calls ih =>
    obtain ⟨reply, ctx₁, rest, hcall, hrest, rfl⟩ := run_cons.mp hrun
    have hfits := fits_of_plain honnx hplain hcall
    have hkeep : ctx₁.cache = none ∧ ctx₁.batchSize = ctx.batchSize := by
      by_cases hdocs : call.documents = []
      · cases (rerank_nil ctx hdocs).symm.trans hcall
        exact ⟨hplain, rfl⟩
      · obtain ⟨_, _, p, heq, hbatch, hrel, -⟩ :=
          rerank_spec (s := none) honnx hscore (hplain ▸ .none) hdocs hfits
        cases heq.symm.trans hcall
        exact ⟨none_of_rel hrel, hbatch⟩
    intro c hc
    rcases List.mem_cons.mp hc with rfl | hc
    · exact hfits
    · exact hkeep.2 ▸ ih hkeep.1 hrest c hc

theorem create_cache (batchSize cacheSize : Int) : ∃ s : Option (LruMap Bytes (List ℚ)),
    Option.Rel LRUCache.Refines (create batchSize cacheSize).cache s ∧
      (∀ s₁ ∈ s, s₁ = .empty cacheSize.toNat 0) ∧ (0 < cacheSize → s.isSome) := by
  by_cases h : 0 < cacheSize
  · refine ⟨some (.empty cacheSize.toNat 0), ?_, by simp, fun _ => rfl⟩
    simp only [create, if_pos h]
    exact .some (.empty _ _)
  · refine ⟨none, ?_, by simp, fun hpos => absurd hpos h⟩
    simp only [create, if_neg h]
    exact .none

theorem transparent_of_unambiguous {tokenizer : TokenizerWrapper} {batchSize : Int}
    (h : Unambiguous tokenizer batchSize calls) : Transparent tokenizer batchSize calls := by
  intro m score cacheSize replies replies' ctx ctx' honnx htok hscore hrun hrun'
  subst htok
  obtain ⟨f, hf⟩ := hscore.factor
  obtain ⟨s, hrel, hempty, -⟩ := create_cache batchSize cacheSize
  have hknown : ∀ s₁ ∈ s, s₁.Holds (Known (fun text => f (m.tokenizer.encode text)) []) := by
    intro s₁ hs
    rw [hempty s₁ hs]
    exact LruMap.holds_empty _ _ _
  have hplain : (create batchSize 0).cache = none := rfl
  have hagree := h (fits_of_run honnx hscore hplain hrun')
  exact run_sameScores honnx hf (fun _ _ ht => congrArg f ht) hrel hknown hplain rfl hagree
    hrun hrun'

-- ---------------------------------------------------------------------------
-- A model that tells tokens apart
-- ---------------------------------------------------------------------------

/-- The tokens of row `i`: the ids the mask covers. -/
def tokensAt (batch : FlatBatch) (i : Nat) : List Int :=
  (row batch.seqLength i batch.ids).take ((row batch.seqLength i batch.mask).count 1)

theorem tokensAt_pairBatch {tokenizer : TokenizerWrapper} {pairs : List Bytes}
    (h : pairs[i]? = some text) :
    tokensAt (pairBatch tokenizer pairs) i = tokenizer.encode text := by
  have hle := tokenizer.length_encode_le_seqLength (List.mem_of_getElem? h)
  have hids : row (tokenizer.encodeBatch pairs).seqLength i
      ((tokenizer.encodeBatch pairs).inputIds.flatMap id) = _ :=
    row_flatMap (tokenizer.length_of_mem_inputIds pairs) (tokenizer.inputIds_getElem? h)
  have hmask : row (tokenizer.encodeBatch pairs).seqLength i
      ((tokenizer.encodeBatch pairs).attentionMask.flatMap id) = _ :=
    row_flatMap (tokenizer.length_of_mem_attentionMask pairs) (tokenizer.attentionMask_getElem? h)
  simp only [tokensAt, pairBatch, hids, hmask, id]
  rw [TokenizerWrapper.resize_of_le hle, TokenizerWrapper.resize_of_le (by simpa using hle),
    List.count_append, List.count_replicate_self, List.count_replicate, if_neg (by decide),
    Nat.add_zero, List.take_left]

/-- Scores one if the tokens are the given ones, zero otherwise. -/
def matchSession (tokens : List Int) : OnnxSession ℚ where
  selectOutput _ := -1
  run batch _ := .returned
    [⟨(List.range batch.batch).map fun i => if tokensAt batch i = tokens then 1 else 0,
      [batch.batch, 1], by simp⟩]

def matchModel (tokenizer : TokenizerWrapper) (tokens : List Int) : RerankModel where
  backendType := .onnx
  tokenizer := tokenizer
  session := matchSession tokens
  llamaRerank _ _ _ := .ok .threw
  sorter := insertionImpl

def matchScore (tokenizer : TokenizerWrapper) (tokens : List Int) (text : Bytes) : ℚ :=
  if tokenizer.encode text = tokens then 1 else 0

theorem matchModel_scores (tokenizer : TokenizerWrapper) (tokens : List Int) :
    Scores (matchModel tokenizer tokens) (matchScore tokenizer tokens) := by
  rintro pairs outputs ⟨⟩
  refine ⟨_, 1, rfl, rfl, fun i text hi => ?_⟩
  have hlt : i < pairs.length := (List.getElem?_eq_some_iff.mp hi).1
  have hrange : (List.range (pairBatch (matchModel tokenizer tokens).tokenizer pairs).batch)[i]? =
      some i := List.getElem?_range hlt
  have htokens : tokensAt (pairBatch (matchModel tokenizer tokens).tokenizer pairs) i =
      tokenizer.encode text := tokensAt_pairBatch hi
  rw [Nat.mul_one, List.getElem?_map, hrange, Option.map_some, htokens]
  rfl

theorem matchModel_returns (tokenizer : TokenizerWrapper) (tokens : List Int) :
    Returns (matchModel tokenizer tokens) := by
  rintro batch i ⟨⟩

-- ---------------------------------------------------------------------------
-- A cache with room for everything
-- ---------------------------------------------------------------------------

/-- The map has a score for every earlier key and room for more. -/
structure Warm (score : Bytes → ℚ) (earlier : List RerankCall) (room : Nat)
    (s : LruMap Bytes (List ℚ)) : Prop where
  known : s.Holds (Known score earlier)
  present : ∀ c ∈ earlier, ∀ d ∈ c.documents, (s.value (rerankKey c.query d)).isSome
  roomy : s.Roomy room

theorem foundScore_roomy {s : LruMap Bytes (List ℚ)} (h : s.Roomy room)
    (hj : call.documents[j]? = some d) :
    foundScore call s j = (s.value (rerankKey call.query d)).bind usable := by
  rw [foundScore, (LruMap.touchAll_roomy h call.now (keys call)).1]
  simp [keys, hj]

/-- With a known value for every earlier key, only new keys are missed. -/
theorem Warm.foundScore {earlier : List RerankCall} {s : LruMap Bytes (List ℚ)}
    (h : Warm score earlier room s) (hj : call.documents[j]? = some d)
    (hv : (s.value (rerankKey call.query d)).isSome) : ∃ v, foundScore call s j = some v ∧
      Known score earlier (rerankKey call.query d) [v] := by
  obtain ⟨v, hv⟩ := Option.isSome_iff_exists.mp hv
  have hknown := h.known.value hv
  obtain ⟨c, -, d', -, -, rfl⟩ := id hknown
  exact ⟨_, by rw [foundScore_roomy h.roomy hj, hv]; rfl, hknown⟩

theorem Warm.afterCall {earlier : List RerankCall} {s : LruMap Bytes (List ℚ)}
    (h : Warm score earlier (call.documents.length + room) s)
    (hp : (misses call (some s)).length ≤ p) :
    Warm score (earlier ++ [call]) room (afterCall score call p s) := by
  obtain ⟨-, htouched, hvalue⟩ := LruMap.touchAll_roomy h.roomy call.now (keys call)
  have hlen := length_misses_le call (some s)
  have hall : (misses call (some s)).take p = misses call (some s) := List.take_of_length_le hp
  have hroomy : ((LruMap.touchAll call.now (keys call) s).2).Roomy
      (((misses call (some s)).map (entryAt score call)).length + room) := by
    refine ⟨htouched.ttl, ?_⟩
    have := htouched.fits
    rw [List.length_map]
    omega
  obtain ⟨hput, hsome⟩ := LruMap.putAll_roomy hroomy call.now
  refine ⟨afterCall_known h.known p, ?_, by rw [Reranker.afterCall, hall]; exact hput⟩
  intro c hc d hd
  rw [Reranker.afterCall, hall, hsome, hvalue]
  rcases List.mem_append.mp hc with hc | hc
  · exact .inr (h.present c hc d hd)
  · obtain rfl := List.mem_singleton.mp hc
    obtain ⟨j, hj⟩ := List.getElem?_of_mem hd
    by_cases hv : (s.value (rerankKey c.query d)).isSome
    · exact .inr hv
    · -- A key without a value is missed, and every miss is put.
      have hmiss : j ∈ misses c (some s) := by
        have hnone : s.value (rerankKey c.query d) = none := by simpa using hv
        have hlt := (List.getElem?_eq_some_iff.mp hj).1
        simp [misses, found, hlt, foundScore_roomy h.roomy hj, hnone]
      refine .inl (List.mem_map.mpr ⟨entryAt score c j, List.mem_map_of_mem hmiss, ?_⟩)
      rw [entryAt, getD_of_getElem? hj]

/-- Every run whose batch counts fit is complete. -/
theorem run_total {m : RerankModel} {ctx : Reranker} (honnx : m.backendType = .onnx)
    (hscore : Scores m score) (hcache : Option.Rel LRUCache.Refines ctx.cache s)
    (hfits : ∀ call ∈ calls, Fits ctx.batchSize call) :
    ∃ replies out s', run m calls ctx = .ok (replies, out) ∧ replies.length = calls.length ∧
      out.batchSize = ctx.batchSize ∧ Option.Rel LRUCache.Refines out.cache s' ∧
      (s = none → s' = none) := by
  induction calls generalizing ctx s with
  | nil => exact ⟨[], ctx, s, rfl, rfl, rfl, hcache, id⟩
  | cons call calls ih =>
    have hrest : ∀ c ∈ calls, Fits ctx.batchSize c := fun c hc =>
      hfits c (List.mem_cons_of_mem _ hc)
    by_cases hdocs : call.documents = []
    · obtain ⟨replies, out, s', hrun, hlen, hout⟩ := ih hcache hrest
      exact ⟨_, out, s', run_cons.mpr ⟨_, ctx, replies, rerank_nil ctx hdocs, hrun, rfl⟩,
        by simp [hlen], hout⟩
    · obtain ⟨reply, ctx₁, p, hcall, hbatch, hrel, -, -⟩ :=
        rerank_spec honnx hscore hcache hdocs (hfits call List.mem_cons_self)
      obtain ⟨replies, out, s', hrun, hlen, hbatch', hrel', hnone⟩ := ih hrel (hbatch ▸ hrest)
      exact ⟨_, out, s', run_cons.mpr ⟨reply, ctx₁, replies, hcall, hrun, rfl⟩, by simp [hlen],
        hbatch'.trans hbatch, hrel', fun hs => hnone (by rw [hs]; rfl)⟩

/-- A run with room for every document leaves a score for each of them. -/
theorem run_warm {m : RerankModel} {ctx : Reranker} {earlier : List RerankCall}
    {s : LruMap Bytes (List ℚ)} (honnx : m.backendType = .onnx) (hscore : Scores m score)
    (hret : Returns m) (hcache : Option.Rel LRUCache.Refines ctx.cache (some s))
    (hwarm : Warm score earlier ((calls.map fun c => c.documents.length).sum + room) s)
    (hfits : ∀ call ∈ calls, Fits ctx.batchSize call) :
    ∃ replies ctx' s', run m calls ctx = .ok (replies, ctx') ∧ replies.length = calls.length ∧
      ctx'.batchSize = ctx.batchSize ∧ Option.Rel LRUCache.Refines ctx'.cache (some s') ∧
      Warm score (earlier ++ calls) room s' := by
  induction calls generalizing ctx s earlier with
  | nil => exact ⟨[], ctx, s, rfl, rfl, rfl, hcache, by simpa using hwarm⟩
  | cons call calls ih =>
    have hrest : ∀ c ∈ calls, Fits ctx.batchSize c := fun c hc =>
      hfits c (List.mem_cons_of_mem _ hc)
    rw [List.map_cons, List.sum_cons, Nat.add_assoc] at hwarm
    have hstep : ∃ reply ctx₁ s₁, ctx.rerank m call = .ok (reply, ctx₁) ∧
        ctx₁.batchSize = ctx.batchSize ∧ Option.Rel LRUCache.Refines ctx₁.cache (some s₁) ∧
        Warm score (earlier ++ [call]) ((calls.map fun c => c.documents.length).sum + room) s₁ := by
      by_cases hdocs : call.documents = []
      · refine ⟨_, ctx, s, rerank_nil ctx hdocs, rfl, hcache, ?_, ?_, ?_⟩
        · exact fun e he => (hwarm.known e he).mono call
        · intro c hc d hd
          rcases List.mem_append.mp hc with hc | hc
          · exact hwarm.present c hc d hd
          · obtain rfl := List.mem_singleton.mp hc
            simp [hdocs] at hd
        · simpa [hdocs] using hwarm.roomy
      · obtain ⟨reply, ctx₁, p, hcall, hbatch, hrel, hok, hstatus⟩ :=
          rerank_spec honnx hscore hcache hdocs (hfits call List.mem_cons_self)
        exact ⟨reply, ctx₁, _, hcall, hbatch, hrel, hwarm.afterCall (hok (hstatus hret.pairs)).1⟩
    obtain ⟨reply, ctx₁, s₁, hcall, hbatch, hrel, hwarm₁⟩ := hstep
    obtain ⟨replies, ctx', s', hrun, hlen, hbatch', hrel', hwarm'⟩ :=
      ih hrel hwarm₁ (hbatch ▸ hrest)
    refine ⟨reply :: replies, ctx', s', run_cons.mpr ⟨reply, ctx₁, replies, hcall, hrun, rfl⟩,
      by simp [hlen], hbatch'.trans hbatch, hrel', by simpa using hwarm'⟩

theorem run_append {m : RerankModel} {ctx : Reranker} (h : run m calls ctx = .ok (replies, ctx₁))
    (hrest : run m more ctx₁ = .ok (rest, out)) :
    run m (calls ++ more) ctx = .ok (replies ++ rest, out) := by
  induction calls generalizing ctx replies with
  | nil =>
    simp only [run, Except.ok.injEq, Prod.mk.injEq] at h
    rw [← h.1, h.2]
    exact hrest
  | cons call calls ih =>
    obtain ⟨reply, ctx₂, tail, hcall, htail, rfl⟩ := run_cons.mp h
    exact run_cons.mpr ⟨reply, ctx₂, tail ++ rest, hcall, ih htail, rfl⟩

-- ---------------------------------------------------------------------------
-- The converse
-- ---------------------------------------------------------------------------

theorem KeysAgree.symm {tokenizer : TokenizerWrapper} (h : KeysAgree tokenizer a b) :
    KeysAgree tokenizer b a :=
  fun d hd d' hd' hkey => (h d' hd' d hd hkey.symm).symm

theorem KeysAgree.refl (tokenizer : TokenizerWrapper) (c : RerankCall) :
    KeysAgree tokenizer c c := by
  intro d _ d' _ hkey
  rw [List.append_cancel_left hkey]

/-- A list that is not pairwise related has a first element that fails. -/
theorem exists_first_failure {R : α → α → Prop} {l : List α} (h : ¬l.Pairwise R) :
    ∃ before a after, l = before ++ a :: after ∧ before.Pairwise R ∧ ∃ b ∈ before, ¬R b a := by
  induction l using List.reverseRecOn with
  | nil => simp at h
  | append_singleton l a ih =>
    by_cases hl : l.Pairwise R
    · refine ⟨l, a, [], rfl, hl, ?_⟩
      by_contra hno
      push Not at hno
      exact h (List.pairwise_append.mpr ⟨hl, List.pairwise_singleton R a, by simpa using hno⟩)
    · obtain ⟨before, b, after, rfl, hrest⟩ := ih hl
      exact ⟨before, b, after ++ [a], by simp, hrest⟩

theorem unambiguous_of_transparent {tokenizer : TokenizerWrapper} {batchSize : Int}
    (h : Transparent tokenizer batchSize calls) : Unambiguous tokenizer batchSize calls := by
  intro hfits
  by_contra hpair
  obtain ⟨pre, call, post, rfl, hpre, c, hc, hfail⟩ := exists_first_failure hpair
  simp only [KeysAgree, not_forall] at hfail
  obtain ⟨d, hd, d', hd', hkey, hne⟩ := hfail
  let tokens := tokenizer.encode (pairText c.query d)
  let m := matchModel tokenizer tokens
  let score := matchScore tokenizer tokens
  have hscore : Scores m score := matchModel_scores tokenizer tokens
  have hret : Returns m := matchModel_returns tokenizer tokens
  have hdocs : call.documents ≠ [] := List.ne_nil_of_mem hd'
  have hpreFits : ∀ x ∈ pre, Fits (create batchSize 0).batchSize x :=
    fun x hx => hfits x (by simp [hx])
  have hcallFits : Fits (create batchSize 0).batchSize call := hfits call (by simp)
  have hpostFits : ∀ x ∈ post, Fits (create batchSize 0).batchSize x :=
    fun x hx => hfits x (by simp [hx])
  -- With the cache: room for every document before the call.
  let room := (pre.map fun c => c.documents.length).sum + 1
  have hrel : Option.Rel LRUCache.Refines (create batchSize room).cache (some (.empty room 0)) := by
    simp only [create, if_pos (show (0 : Int) < room by omega), Int.toNat_natCast]
    exact .some (.empty _ _)
  have hwarm : Warm score [] ((pre.map fun c => c.documents.length).sum + 1) (.empty room 0) :=
    ⟨LruMap.holds_empty _ _ _, by simp, le_refl 0, by simp [LruMap.empty, room]⟩
  obtain ⟨replies, ctx₁, s₁, hrun, hlen, hbatch, hrel₁, hwarm₁⟩ :=
    run_warm rfl hscore hret hrel hwarm hpreFits
  obtain ⟨reply, ctx₂, p, hcall, hbatch₂, hrel₂, hok, hstatus⟩ :=
    rerank_spec rfl hscore hrel₁ hdocs (hbatch ▸ hcallFits)
  obtain ⟨rest, out, -, hrest, -⟩ := run_total rfl hscore hrel₂ (hbatch₂ ▸ hbatch ▸ hpostFits)
  have hcached := run_append hrun (run_cons.mpr ⟨reply, ctx₂, rest, hcall, hrest, rfl⟩)
  -- Without it: every pair is scored.
  have hplain : Option.Rel LRUCache.Refines (create batchSize 0).cache none := .none
  obtain ⟨replies', ctx₁', s₁', hrun', hlen', hbatch', hrel₁', hnone⟩ :=
    run_total rfl hscore hplain hpreFits
  obtain rfl := hnone rfl
  obtain ⟨reply', ctx₂', p', hcall', hbatch₂', hrel₂', hok', hstatus'⟩ :=
    rerank_spec rfl hscore hrel₁' hdocs (hbatch' ▸ hcallFits)
  obtain ⟨rest', out', -, hrest', -⟩ := run_total rfl hscore hrel₂' (hbatch₂' ▸ hbatch' ▸ hpostFits)
  have hplainRun := run_append hrun' (run_cons.mpr ⟨reply', ctx₂', rest', hcall', hrest', rfl⟩)
  have hboth := List.forall₂_drop_append _ _ _
    (h m score room _ _ _ _ rfl rfl hscore hcached hplainRun)
  rw [hlen', ← hlen, List.drop_left] at hboth
  have hsame : SameScores reply reply' := (List.forall₂_cons.mp hboth).1
  obtain ⟨-, items, hitems, hperm, -⟩ := hok (hstatus hret.pairs)
  obtain ⟨-, items', hitems', hperm', -⟩ := hok' (hstatus' hret.pairs)
  have hmem := hsame (hstatus hret.pairs) (hstatus' hret.pairs)
  simp only [hitems, hitems', Option.getD_some, hperm.mem_iff, hperm'.mem_iff] at hmem
  -- The cached score of the document is one, its own is zero.
  obtain ⟨j, hj⟩ := List.getElem?_of_mem hd'
  have hpair : pairAt call j = pairText call.query d' := by rw [pairAt, getD_of_getElem? hj]
  have hpresent : (s₁.value (rerankKey call.query d')).isSome :=
    hkey ▸ hwarm₁.present c hc d hd
  obtain ⟨v, hv, c₁, hc₁, d₁, hd₁, hkey₁, hscore₁⟩ := hwarm₁.foundScore hj hpresent
  have hsymm : Std.Symm (KeysAgree tokenizer) := ⟨fun _ _ => KeysAgree.symm⟩
  have htokens : tokenizer.encode (pairText c₁.query d₁) = tokens :=
    hpre.forall_of_forall (fun x _ => KeysAgree.refl tokenizer x) hc₁ hc d₁ hd₁ d hd
      (hkey₁.trans hkey.symm)
  have hone : v = 1 := (List.cons.inj hscore₁).1.trans (if_pos htokens)
  have hlt := (List.getElem?_eq_some_iff.mp hj).1
  have hin : (⟨j, 1⟩ : RerankResult) ∈ scored score call (some s₁) :=
    List.mem_map.mpr ⟨j, List.mem_range.mpr hlt, by rw [found, Option.bind_some, hv, hone]; rfl⟩
  obtain ⟨k, -, hk⟩ := List.mem_map.mp ((hmem _).mp hin)
  obtain ⟨rfl, hzero⟩ := RerankResult.mk.inj hk
  have hscore₀ : score (pairAt call k) = 0 := by
    rw [hpair]
    exact if_neg fun heq => hne heq.symm
  simp [found, hscore₀] at hzero

/-- A vocabulary of two words. -/
def twoWordTokenizer : TokenizerWrapper :=
  { TokenizerWrapper.new with
    vocab := ((∅ : UMap Bytes Int).insert (ascii "a") 1).insert (ascii "b") 2 }

/-- Two pairs with the key `"a\nb\nc"`. -/
def newlineCalls : List RerankCall :=
  [⟨ascii "a\nb", [ascii "c"], 0, 0⟩, ⟨ascii "a", [ascii "b\nc"], 0, 0⟩]

end Reranker

end LibEmbedding
