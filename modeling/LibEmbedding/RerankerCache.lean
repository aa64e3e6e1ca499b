import LibEmbedding.Reranker

/-!
# The reranker cache

What one call computes over a cache that refines a reference map: the documents
whose key has a score take it, the others are scored and stored in order. The
key does not tell apart two pairs that join to the same bytes, and the cache is
transparent exactly where no such pairs with different tokens meet.
-/

namespace LibEmbedding

open Foundation

namespace Reranker

/-- The keys of a call, in the order of its documents. -/
def keys (call : RerankCall) : List Bytes := call.documents.map (rerankKey call.query)

/-- The score the lookups of a call find for document `j`. -/
def foundScore (call : RerankCall) (s : LruMap Bytes (List ℚ)) (j : Nat) : Option ℚ :=
  ((LruMap.touchAll call.now (keys call) s).1[j]?.join).bind usable

-- ---------------------------------------------------------------------------
-- The lookups
-- ---------------------------------------------------------------------------

/-- After `i` lookups: the misses so far in order, the found scores in place. -/
structure Split.Inv (call : RerankCall) (s : LruMap Bytes (List ℚ)) (i : Nat) (st : Split) :
    Prop where
  refines : LRUCache.Refines st.cache (LruMap.touchAll call.now ((keys call).take i) s).2
  length : st.allScores.length = call.documents.length
  missing : st.missIndices = (List.range i).filter fun j => foundScore call s j = none
  served : ∀ j < i, ∀ v, foundScore call s j = some v → st.allScores[j]? = some v

theorem getElem?_set_of_writeAt {xs : List α} (h : writeAt xs i [x] = .ok out) (j : Nat) :
    out[j]? = if j = i then some x else xs[j]? := by
  rw [getElem?_of_writeAt h]
  by_cases hj : j = i
  · subst hj
    simp
  · rw [if_neg hj, if_neg (by simp; omega)]

theorem writeAt_singleton_ok {xs : List α} (hi : i < xs.length) (x : α) :
    ∃ out, writeAt xs i [x] = .ok out :=
  ⟨_, writeAt_ok.mpr ⟨by simpa using hi, rfl⟩⟩

theorem bind_usable_filter (hit : Option (List ℚ)) :
    (hit.filter (· ≠ [])).bind usable = hit.bind usable := by
  cases hit with
  | none => rfl
  | some v => cases v <;> rfl

theorem lookupDocument_inv {call : RerankCall} {s : LruMap Bytes (List ℚ)} {st : Split}
    (hi : i < call.documents.length) (h : st.Inv call s i) :
    ∃ st', lookupDocument call st i = .ok st' ∧ st'.Inv call s (i + 1) := by
  obtain ⟨doc, hdoc⟩ : ∃ doc, call.documents[i]? = some doc := ⟨_, List.getElem?_eq_getElem hi⟩
  have hkey : (keys call)[i]? = some (rerankKey call.query doc) := by simp [keys, hdoc]
  obtain ⟨cache, hget, hrefines⟩ := h.refines.getCopyVec call.now (rerankKey call.query doc)
  have hfound := LruMap.getElem?_touchAll call.now hkey s
  have htake : (keys call).take (i + 1) = (keys call).take i ++ [rerankKey call.query doc] := by
    rw [List.take_add_one, hkey]
    rfl
  have hrefines' : LRUCache.Refines cache
      (LruMap.touchAll call.now ((keys call).take (i + 1)) s).2 := by
    rw [htake, LruMap.touchAll_append]
    exact hrefines
  have hscore : ((((LruMap.touchAll call.now ((keys call).take i) s).2.touch call.now
      (rerankKey call.query doc)).1).filter (· ≠ [])).bind usable = foundScore call s i := by
    rw [foundScore, hfound, Option.join_some]
    exact bind_usable_filter _
  simp only [lookupDocument, get_ok.mpr hdoc, ok_bind, hget, hscore]
  cases hhit : foundScore call s i with
  | none =>
    refine ⟨_, rfl, hrefines', h.length, ?_, ?_⟩
    · simp [h.missing, List.range_succ, hhit]
    · intro j hj v hv
      rcases Nat.lt_succ_iff_lt_or_eq.mp hj with hlt | rfl
      · exact h.served j hlt v hv
      · simp [hhit] at hv
  | some v =>
    obtain ⟨allScores, hw⟩ := writeAt_singleton_ok (h.length ▸ hi) v
    refine ⟨_, by simp only [hw, ok_bind]; rfl, hrefines',
      (length_of_writeAt hw).trans h.length, ?_, ?_⟩
    · simp [h.missing, List.range_succ, hhit]
    · intro j hj w hv
      rw [getElem?_set_of_writeAt hw]
      rcases Nat.lt_succ_iff_lt_or_eq.mp hj with hlt | rfl
      · rw [if_neg (by omega), h.served j hlt w hv]
      · rw [if_pos rfl, ← hhit, hv]

theorem lookups_inv (call : RerankCall) {s : LruMap Bytes (List ℚ)} {cache : LRUCache Bytes ℚ}
    (h : LRUCache.Refines cache s) (hits misses : Nat) :
    ∃ st, forUpTo call.documents.length (lookupDocument call)
      ⟨List.replicate call.documents.length 0, [], cache, hits, misses⟩ = .ok st ∧
      st.Inv call s call.documents.length :=
  forUpTo_total (Split.Inv call s)
    ⟨by simpa [LruMap.touchAll] using h, by simp, rfl, fun j hj => absurd hj (Nat.not_lt_zero j)⟩
    fun _ _ hi hst => lookupDocument_inv hi hst

-- ---------------------------------------------------------------------------
-- The batches
-- ---------------------------------------------------------------------------

/-- The session scores each pair text of a batch by a function of the text, at the
offset the code reads. -/
def Scores (m : RerankModel) (score : Bytes → ℚ) : Prop :=
  ∀ pairs outputs, m.session.run (pairBatch m.tokenizer pairs) (-1) = .returned outputs →
    ∃ output back, outputs[0]? = some output ∧ output.shape.getLast? = some back ∧
      ∀ i text, pairs[i]? = some text → output.data[i * back]? = some (score text)

/-- The text of document `j`, and the entry its score is cached as. -/
def pairAt (call : RerankCall) (j : Nat) : Bytes :=
  pairText call.query (call.documents.getD j [])

def entryAt (score : Bytes → ℚ) (call : RerankCall) (j : Nat) : Bytes × List ℚ :=
  (rerankKey call.query (call.documents.getD j []), [score (pairAt call j)])

/-- After `p` misses: these have their scores, the others what they had, and the
cache has got the entries in order. -/
structure Scoring.Inv (score : Bytes → ℚ) (call : RerankCall) (missIndices : List Nat)
    (base : List ℚ) (s : Option (LruMap Bytes (List ℚ))) (p : Nat) (st : Scoring) : Prop where
  length : st.allScores.length = call.documents.length
  scored : ∀ j, st.allScores[j]? =
    if j ∈ missIndices.take p then some (score (pairAt call j)) else base[j]?
  cache : Option.Rel LRUCache.Refines st.cache
    (s.map (LruMap.putAll call.now ((missIndices.take p).map (entryAt score call))))

variable {score : Bytes → ℚ} {call : RerankCall} {missIndices : List Nat} {base : List ℚ}
  {s : Option (LruMap Bytes (List ℚ))} {st : Scoring}

theorem getD_of_getElem? {xs : List (List α)} (h : xs[i]? = some x) : xs.getD i [] = x := by
  simp [List.getD_eq_getElem?_getD, h]

theorem storeScore_inv (hj : missIndices[p]? = some j) (hn : j < call.documents.length)
    (h : st.Inv score call missIndices base s p) :
    ∃ st', storeScore call st j (score (pairAt call j)) = .ok st' ∧
      st'.Inv score call missIndices base s (p + 1) ∧ st'.threw = st.threw := by
  obtain ⟨doc, hdoc⟩ : ∃ doc, call.documents[j]? = some doc := ⟨_, List.getElem?_eq_getElem hn⟩
  obtain ⟨allScores, hw⟩ := writeAt_singleton_ok (h.length ▸ hn) (score (pairAt call j))
  have htake : missIndices.take (p + 1) = missIndices.take p ++ [j] := by
    rw [List.take_add_one, hj]
    rfl
  have hscored : ∀ k, allScores[k]? =
      if k ∈ missIndices.take (p + 1) then some (score (pairAt call k)) else base[k]? := by
    intro k
    rw [getElem?_set_of_writeAt hw, h.scored, htake]
    by_cases hk : k = j
    · subst hk
      simp
    · simp [hk]
  have hlength := (length_of_writeAt hw).trans h.length
  have hcache := h.cache
  simp only [storeScore, hw, ok_bind]
  cases hs : s with
  | none =>
    rw [hs] at hcache
    have hnone : st.cache = none := by
      cases hc : st.cache with
      | none => rfl
      | some c => rw [hc] at hcache; cases hcache
    rw [hnone]
    refine ⟨_, rfl, ⟨hlength, hscored, ?_⟩, rfl⟩
    simp
  | some s₁ =>
    rw [hs] at hcache
    cases hc : st.cache with
    | none => rw [hc] at hcache; cases hcache
    | some c =>
      rw [hc] at hcache
      obtain ⟨c', hput, hrefines⟩ := (Option.rel_some_some.mp hcache).put call.now
        (rerankKey call.query doc) [score (pairAt call j)]
      refine ⟨{ st with allScores, cache := some c' }, ?_, ⟨hlength, hscored, ?_⟩, rfl⟩
      · simp only [get_ok.mpr hdoc, ok_bind, hput]
        rfl
      · have hentry : entryAt score call j =
            (rerankKey call.query doc, [score (pairAt call j)]) := by
          rw [entryAt, getD_of_getElem? hdoc]
        rw [htake, List.map_append, List.map_singleton, hentry]
        refine Option.Rel.some ?_
        rw [LruMap.putAll_append]
        exact hrefines

theorem Scoring.Inv.threw (h : st.Inv score call missIndices base s p) :
    Scoring.Inv score call missIndices base s p { st with threw := true } :=
  ⟨h.length, h.scored, h.cache⟩

theorem missText_ok (hvalid : ∀ j ∈ missIndices, j < call.documents.length)
    (hi : missIndices[i]? = some j) : missText call missIndices i = .ok (pairAt call j) := by
  have hn := hvalid j (List.mem_of_getElem? hi)
  have hdoc := List.getElem?_eq_getElem hn
  simp only [missText, get_ok.mpr hi, ok_bind, get_ok.mpr hdoc, pairAt, getD_of_getElem? hdoc]
  rfl

/-- The rows of one batch, once the session has returned. -/
theorem storeRows_inv (bsz : Nat) (hvalid : ∀ j ∈ missIndices, j < call.documents.length)
    (hback : output.shape.getLast? = some back)
    (hrows : ∀ i j, i < bsz → missIndices[start + i]? = some j →
      output.data[i * back]? = some (score (pairAt call j)))
    (hbound : start + bsz ≤ missIndices.length)
    (h : st.Inv score call missIndices base s start) :
    ∃ st', forUpTo bsz (storeRow call missIndices start output) st = .ok st' ∧
      st'.Inv score call missIndices base s (start + bsz) ∧ st'.threw = st.threw := by
  refine forUpTo_total (fun i (st' : Scoring) =>
    st'.Inv score call missIndices base s (start + i) ∧ st'.threw = st.threw) ⟨h, rfl⟩ ?_
  rintro i st₁ hi ⟨h₁, hthrew⟩
  obtain ⟨j, hj⟩ : ∃ j, missIndices[start + i]? = some j :=
    ⟨_, List.getElem?_eq_getElem (by omega)⟩
  obtain ⟨st₂, hstore, h₂, hthrew₂⟩ :=
    storeScore_inv hj (hvalid j (List.mem_of_getElem? hj)) h₁
  refine ⟨st₂, ?_, h₂, hthrew₂.trans hthrew⟩
  simp only [storeRow, get_ok.mpr hj, ok_bind, hback, get_ok.mpr (hrows i j hi hj), hstore]

/-- Before batch `bi` the first `bi * batchSize` misses are scored, unless a batch
threw. -/
def Scoring.Reached (score : Bytes → ℚ) (call : RerankCall) (missIndices : List Nat)
    (base : List ℚ) (s : Option (LruMap Bytes (List ℚ))) (batchSize : Int) (bi : Nat)
    (st : Scoring) : Prop :=
  ∃ p, st.Inv score call missIndices base s p ∧
    (st.threw = false → (p : Int) = min (bi * batchSize) missIndices.length)

/-- A session that never throws. -/
def Returns (m : RerankModel) : Prop := ∀ batch i, m.session.run batch i ≠ .threw

/-- A session that does not throw on batches of pair texts. -/
def ReturnsPairs (m : RerankModel) : Prop :=
  ∀ pairs, m.session.run (pairBatch m.tokenizer pairs) (-1) ≠ .threw

theorem Returns.pairs (h : Returns m) : ReturnsPairs m := fun _ => h _ _

theorem scoreBatch_reached {m : RerankModel} {batchSize : Int} (hscore : Scores m score)
    (hvalid : ∀ j ∈ missIndices, j < call.documents.length) (hb : 0 < batchSize)
    (hfits : (missIndices.length : Int) + batchSize ≤ intMax) {bi : Nat}
    (hbi : (bi : Int) < (missIndices.length + batchSize - 1) / batchSize)
    (h : st.Reached score call missIndices base s batchSize bi) :
    ∃ st', scoreBatch m call missIndices batchSize st bi = .ok st' ∧
      st'.Reached score call missIndices base s batchSize (bi + 1) ∧
      (ReturnsPairs m → st'.threw = st.threw) := by
  obtain ⟨p, hinv, hp⟩ := h
  unfold scoreBatch
  by_cases hthrew : st.threw = true
  · rw [if_pos hthrew]
    exact ⟨st, rfl, ⟨p, hinv, fun hf => by simp [hthrew] at hf⟩, fun _ => rfl⟩
  rw [if_neg hthrew]
  obtain ⟨hrange, hnonneg, hstart⟩ := getBatch_total hb hfits (Int.natCast_nonneg bi) hbi
  have hpeq : (p : Int) = bi * batchSize := by
    rw [hp (by simpa using hthrew)]
    omega
  have hnext : ((bi + 1 : Nat) : Int) * batchSize = bi * batchSize + batchSize := by
    push_cast
    ring
  obtain ⟨bsz, hbsz⟩ : ∃ bsz : Nat, min (bi * batchSize + batchSize) (missIndices.length : Int) -
      bi * batchSize = bsz := Int.eq_ofNat_of_zero_le (by omega)
  have htoNat : (bi * batchSize).toNat = p := by omega
  have hpairs : (List.range' p bsz).mapM (missText call missIndices) =
      .ok ((List.range' p bsz).map fun i => pairAt call (missIndices.getD i 0)) := by
    refine mapM_eq fun i hi => ?_
    have hlt : i < missIndices.length := by
      rw [List.mem_range'_1] at hi
      omega
    exact missText_ok hvalid (get_ok.mp (get_getD hlt 0))
  simp only [hrange, ok_bind, hbsz, htoNat, Int.toNat_natCast, hpairs]
  cases hrun : m.session.run (pairBatch m.tokenizer ((List.range' p bsz).map fun i =>
      pairAt call (missIndices.getD i 0))) (-1) with
  | threw => exact ⟨_, rfl, ⟨p, hinv.threw, by simp⟩, fun hret => absurd hrun (hret _)⟩
  | returned outputs =>
    obtain ⟨output, back, hout, hback, hrows⟩ := hscore _ _ hrun
    obtain ⟨st', hloop, hinv', hthrew'⟩ := storeRows_inv bsz hvalid hback
      (fun i j hi hj => hrows i _ (by simp [hi, List.getD_eq_getElem?_getD, hj])) (by omega) hinv
    refine ⟨st', by simp only [get_ok.mpr hout, ok_bind, hloop], ⟨p + bsz, hinv', fun _ => ?_⟩,
      fun _ => hthrew'⟩
    rw [hnext]
    push_cast
    omega

theorem scoreOnnx_reached {m : RerankModel} {batchSize : Int} (hscore : Scores m score)
    (hvalid : ∀ j ∈ missIndices, j < call.documents.length) (hb : 0 < batchSize)
    (hfits : (missIndices.length : Int) + batchSize ≤ intMax)
    (h : st.Inv score call missIndices base s 0) :
    ∃ st' p, scoreOnnx m call missIndices batchSize st = .ok st' ∧
      st'.Inv score call missIndices base s p ∧
      (st'.threw = false → missIndices.length ≤ p) ∧ (ReturnsPairs m → st'.threw = st.threw) := by
  obtain ⟨count, hcount⟩ : ∃ count : Nat,
      ((missIndices.length : Int) + batchSize - 1) / batchSize = count :=
    Int.eq_ofNat_of_zero_le (Int.ediv_nonneg (by omega) hb.le)
  have hstep : ∀ bi (st₁ : Scoring), bi < count →
      st₁.Reached score call missIndices base s batchSize bi ∧ (ReturnsPairs m → st₁.threw = st.threw) →
      ∃ st₂, scoreBatch m call missIndices batchSize st₁ bi = .ok st₂ ∧
        st₂.Reached score call missIndices base s batchSize (bi + 1) ∧
        (ReturnsPairs m → st₂.threw = st.threw) := by
    rintro bi st₁ hbi ⟨hreached, hthrew⟩
    obtain ⟨st₂, hbatch, hreached', hthrew'⟩ :=
      scoreBatch_reached hscore hvalid hb hfits (by omega) hreached
    exact ⟨st₂, hbatch, hreached', fun hret => (hthrew' hret).trans (hthrew hret)⟩
  obtain ⟨st', hloop, ⟨p, hinv, hp⟩, hthrew⟩ :=
    forUpTo_total _ ⟨⟨0, h, fun _ => by simp⟩, fun _ => rfl⟩ hstep
  refine ⟨st', p, ?_, hinv, fun hf => ?_, hthrew⟩
  · rw [scoreOnnx, batchCount_total (Int.natCast_nonneg _) hb hfits, ok_bind, hcount,
      Int.toNat_natCast, hloop]
  · have hend : (missIndices.length : Int) ≤ count * batchSize := hcount ▸ batch_end hb
    have := hp hf
    omega

-- ---------------------------------------------------------------------------
-- One call
-- ---------------------------------------------------------------------------

/-- The score found for document `j`, and the documents without one. -/
def found (call : RerankCall) (s : Option (LruMap Bytes (List ℚ))) (j : Nat) : Option ℚ :=
  s.bind (foundScore call · j)

def misses (call : RerankCall) (s : Option (LruMap Bytes (List ℚ))) : List Nat :=
  (List.range call.documents.length).filter fun j => found call s j = none

/-- The reference map after the lookups of a call and `p` of its misses. -/
def afterCall (score : Bytes → ℚ) (call : RerankCall) (p : Nat) (s : LruMap Bytes (List ℚ)) :
    LruMap Bytes (List ℚ) :=
  ((LruMap.touchAll call.now (keys call) s).2).putAll call.now
    (((misses call (some s)).take p).map (entryAt score call))

/-- The batch size a call runs with. -/
def effectiveBatch (batchSize : Int) (call : RerankCall) : Int :=
  if call.batchSize ≤ 0 then batchSize else call.batchSize

/-- The count of the batches is an `int`; a call without documents has none. -/
def Fits (batchSize : Int) (call : RerankCall) : Prop :=
  call.documents = [] ∨ (call.documents.length : Int) + effectiveBatch batchSize call ≤ intMax

/-- The scores a complete call returns, in the order of the documents. -/
def scored (score : Bytes → ℚ) (call : RerankCall) (s : Option (LruMap Bytes (List ℚ))) :
    List RerankResult :=
  (List.range call.documents.length).map fun j => ⟨j, (found call s j).getD (score (pairAt call j))⟩

theorem misses_lt : ∀ j ∈ misses call s, j < call.documents.length := by
  intro j hj
  simpa using (List.mem_filter.mp hj).1

theorem length_misses_le (call : RerankCall) (s : Option (LruMap Bytes (List ℚ))) :
    (misses call s).length ≤ call.documents.length := by
  have := List.length_filter_le (fun j => decide (found call s j = none))
    (List.range call.documents.length)
  rwa [List.length_range] at this

variable (call) in
theorem splitDocuments_inv {ctx : Reranker} (h : Option.Rel LRUCache.Refines ctx.cache s) :
    ∃ allScores ctx', ctx.splitDocuments call = .ok (allScores, misses call s, ctx') ∧
      ctx'.batchSize = ctx.batchSize ∧ allScores.length = call.documents.length ∧
      (∀ j < call.documents.length, ∀ v, found call s j = some v → allScores[j]? = some v) ∧
      Option.Rel LRUCache.Refines ctx'.cache
        (s.map fun s => (LruMap.touchAll call.now (keys call) s).2) := by
  cases hc : ctx.cache with
  | none =>
    rw [hc] at h
    cases h
    have hmiss : misses call none = List.range call.documents.length := by simp [misses, found]
    refine ⟨List.replicate _ 0,
      { ctx with cacheMisses := ctx.cacheMisses + call.documents.length }, ?_, rfl,
      List.length_replicate, fun j _ v hv => by simp [found] at hv, ?_⟩
    · simp only [splitDocuments, hc, hmiss]
      rfl
    · exact hc ▸ .none
  | some cache =>
    rw [hc] at h
    cases h with
    | some hr =>
      rename_i s
      obtain ⟨st, hloop, hinv⟩ := lookups_inv call hr ctx.cacheHits ctx.cacheMisses
      have hkeys : (keys call).take call.documents.length = keys call :=
        List.take_of_length_le (by simp [keys])
      have hmiss : st.missIndices = misses call (some s) := hinv.missing
      refine ⟨st.allScores, { ctx with cache := some st.cache
                                       cacheHits := st.cacheHits
                                       cacheMisses := st.cacheMisses }, ?_, rfl, hinv.length,
        hinv.served, ?_⟩
      · simp only [splitDocuments, hc, hloop, ok_bind, hmiss]
        rfl
      · exact .some (hkeys ▸ hinv.refines)

theorem scoreMisses_reached {m : RerankModel} {batchSize : Int} (honnx : m.backendType = .onnx)
    (hscore : Scores m score) (hvalid : ∀ j ∈ missIndices, j < call.documents.length)
    (hb : 0 < batchSize) (hfits : (missIndices.length : Int) + batchSize ≤ intMax)
    (h : st.Inv score call missIndices base s 0) :
    ∃ st' p, scoreMisses m call missIndices batchSize st = .ok st' ∧
      st'.Inv score call missIndices base s p ∧
      (st'.threw = false → missIndices.length ≤ p) ∧ (ReturnsPairs m → st'.threw = st.threw) := by
  unfold scoreMisses
  by_cases hnil : missIndices = []
  · rw [if_pos hnil]
    exact ⟨st, 0, rfl, h, fun _ => by simp [hnil], fun _ => rfl⟩
  · rw [if_neg hnil, honnx]
    exact scoreOnnx_reached hscore hvalid hb hfits h

theorem ranksBefore_strictWeak (l : List RerankResult) : StrictWeak ranksBefore l :=
  .of_key_gt RerankResult.score l

theorem effectiveBatch_pos (ctx : Reranker) (call : RerankCall) :
    0 < effectiveBatch ctx.batchSize call := by
  have := ctx.batchSizePos
  unfold effectiveBatch
  split <;> omega

/-- Once every miss is scored the results are the found scores and the computed ones. -/
theorem zipIdx_eq_scored {allScores base : List ℚ}
    (hlen : allScores.length = call.documents.length)
    (hserved : ∀ j < call.documents.length, ∀ v, found call s j = some v → base[j]? = some v)
    (hall : ∀ j, allScores[j]? =
      if j ∈ misses call s then some (score (pairAt call j)) else base[j]?) :
    allScores.zipIdx.map (fun e => (⟨e.2, e.1⟩ : RerankResult)) = scored score call s := by
  apply List.ext_getElem?
  intro j
  by_cases hj : j < call.documents.length
  · have hmem : j ∈ misses call s ↔ found call s j = none := by simp [misses, hj]
    have hvalue : allScores[j]? = some ((found call s j).getD (score (pairAt call j))) := by
      rw [hall]
      cases hf : found call s j with
      | none => rw [if_pos (hmem.mpr hf), Option.getD_none]
      | some v =>
        rw [if_neg fun hm => by simp [hmem.mp hm] at hf, hserved j hj v hf, Option.getD_some]
    simp [scored, List.getElem?_zipIdx, hvalue, hj]
  · rw [List.getElem?_eq_none (by simp; omega), List.getElem?_eq_none (by simp [scored]; omega)]

/-- What a call computes over a cache that refines `s`, or over none. -/
theorem rerank_spec {m : RerankModel} {ctx : Reranker} (honnx : m.backendType = .onnx)
    (hscore : Scores m score) (hcache : Option.Rel LRUCache.Refines ctx.cache s)
    (hdocs : call.documents ≠ []) (hfits : Fits ctx.batchSize call) :
    ∃ reply ctx' p, ctx.rerank m call = .ok (reply, ctx') ∧ ctx'.batchSize = ctx.batchSize ∧
      Option.Rel LRUCache.Refines ctx'.cache (s.map (afterCall score call p)) ∧
      (reply.status = .ok → (misses call s).length ≤ p ∧
        ∃ items, reply.items = some items ∧ items.Perm (scored score call s) ∧
          items.Pairwise (InOrder ranksBefore)) ∧
      (ReturnsPairs m → reply.status = .ok) := by
  have hfits := hfits.resolve_left hdocs
  have hpos := effectiveBatch_pos ctx call
  have hlen : call.documents.length ≠ 0 := by simpa using hdocs
  obtain ⟨allScores, ctx₁, hsplit, hbatch, hall, hserved, hrel⟩ := splitDocuments_inv call hcache
  have hle := length_misses_le call s
  have hinit : Scoring.Inv score call (misses call s) allScores
      (s.map fun s => (LruMap.touchAll call.now (keys call) s).2) 0
      ⟨allScores, ctx₁.cache, false⟩ :=
    ⟨hall, by simp, by rw [Option.map_map]; exact hrel⟩
  obtain ⟨st, p, hscored, hinv, hdone, hthrew⟩ :=
    scoreMisses_reached honnx hscore misses_lt hpos (by omega) hinit
  have hcache' : Option.Rel LRUCache.Refines st.cache (s.map (afterCall score call p)) := by
    have hc := hinv.cache
    rw [Option.map_map] at hc
    cases s with
    | none => exact hc
    | some s => exact hc
  have heff : (if call.batchSize ≤ 0 then ctx.batchSize else call.batchSize) =
      effectiveBatch ctx.batchSize call := rfl
  simp only [rerank, if_neg hlen, hsplit, ok_bind, heff, hscored]
  cases hth : st.threw with
  | true =>
    refine ⟨_, { ctx₁ with cache := st.cache }, p, rfl, hbatch, hcache', by simp, fun hret => ?_⟩
    simp [hth] at hthrew
    exact absurd hret hthrew
  | false =>
    have hp := hdone hth
    have hitems : st.allScores.zipIdx.map (fun e => (⟨e.2, e.1⟩ : RerankResult)) =
        scored score call s :=
      zipIdx_eq_scored hinv.length hserved fun j => by
        rw [hinv.scored, List.take_of_length_le hp]
    obtain ⟨items, hsort, hperm, horder⟩ := m.sorter.sort_spec ranksBefore _
      (ranksBefore_strictWeak (scored score call s))
    have hcount := batchCount_total (Int.natCast_nonneg call.documents.length) hpos hfits
    refine ⟨⟨.ok, some items⟩, { ctx₁ with
        cache := st.cache
        textsEmbedded := ctx₁.textsEmbedded + call.documents.length
        batchesRun := ctx₁.batchesRun + (((call.documents.length : Int) +
          effectiveBatch ctx.batchSize call - 1) / effectiveBatch ctx.batchSize call).toNat
        statsCalls := ctx₁.statsCalls + 1 }, p, ?_, hbatch, hcache',
      fun _ => ⟨hp, items, rfl, hperm, horder⟩, fun _ => rfl⟩
    simp only [Bool.false_eq_true, if_false, hitems, hsort, ok_bind, hcount]
    rfl

end Reranker

end LibEmbedding
