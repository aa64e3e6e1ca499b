import LibEmbedding.RerankerTransparent

/-!
# What a rerank call returns

Scores come from the cache and from batches of the documents it has none for, go to the
places of their documents, and are sorted. The order of the documents and the batches leave
no trace in the pairs of an index and a score.
-/

namespace LibEmbedding

open Foundation

namespace Reranker

/-- The model scores a pair text by a function of the text, in whatever batch. -/
structure ScoresAlways (m : RerankModel) (score : Bytes → ℚ) : Prop where
  scores : Scores m score
  returns : ReturnsPairs m

/-- An entry under the key of a pair of the call holds the score of that pair. -/
def OwnScore (score : Bytes → ℚ) (call : RerankCall) (key : Bytes) (v : List ℚ) : Prop :=
  ∀ d ∈ call.documents, rerankKey call.query d = key → v = [score (pairText call.query d)]

/-- Each document with the score of its own pair. -/
def ownScores (score : Bytes → ℚ) (query : Bytes) (documents : List Bytes) : List RerankResult :=
  documents.zipIdx.map fun e => ⟨e.2, score (pairText query e.1)⟩

/-- A call with documents returns each index once, with the score of its own pair, and the
greater scores first. The batch size has no part in it. -/
def Ranks (m : RerankModel) (score : Bytes → ℚ) (call : RerankCall) (ctx : Reranker) : Prop :=
  ∃ reply ctx', ctx.rerank m call = .ok (reply, ctx') ∧ (call.documents ≠ [] →
    reply.status = .ok ∧ ∃ items, reply.items = some items ∧
      items.Perm (ownScores score call.query call.documents) ∧
      (items.map (·.index)).Perm (List.range call.documents.length) ∧
      items.Pairwise fun a b => b.score ≤ a.score)

theorem index_ownScores (score : Bytes → ℚ) (query : Bytes) (documents : List Bytes) :
    (ownScores score query documents).map (·.index) = List.range documents.length := by
  rw [ownScores, List.map_map]
  exact List.zipIdx_map_snd 0 documents |>.trans (List.range_eq_range' ..).symm

/-- Where the entries hold the scores of their own pairs, what is found is what would be
computed. -/
theorem scored_own {s : Option (LruMap Bytes (List ℚ))}
    (hown : ∀ s₁ ∈ s, s₁.Holds (OwnScore score call)) :
    scored score call s = ownScores score call.query call.documents := by
  apply List.ext_getElem?
  intro j
  by_cases hj : j < call.documents.length
  · have hdocument : call.documents.getD j [] = call.documents[j] := by
      rw [List.getD_eq_getElem?_getD, List.getElem?_eq_getElem hj]
      rfl
    have hfound : (found call s j).getD (score (pairAt call j)) =
        score (pairText call.query call.documents[j]) := by
      cases hf : found call s j with
      | none => rw [Option.getD_none, pairAt, hdocument]
      | some v =>
        obtain ⟨s₁, hs, hv⟩ := Option.bind_eq_some_iff.mp hf
        have hheld := foundScore_holds (hown s₁ hs) hj hv _ (getD_mem hj) rfl
        rw [Option.getD_some, (List.cons.inj hheld).1, hdocument]
    simp [scored, ownScores, hj, hfound]
  · rw [List.getElem?_eq_none (by simp [scored]; omega),
      List.getElem?_eq_none (by simp [ownScores]; omega)]

/-- A call that succeeds has counted the batches of all its documents. -/
theorem fits_of_rerank {m : RerankModel} {ctx : Reranker}
    (h : ctx.rerank m call = .ok (reply, ctx')) (hok : reply.status = .ok) :
    Fits ctx.batchSize call := by
  by_cases hdocs : call.documents = []
  · exact .inl hdocs
  have hlen : call.documents.length ≠ 0 := by simpa using hdocs
  have heff : (if call.batchSize ≤ 0 then ctx.batchSize else call.batchSize) =
      effectiveBatch ctx.batchSize call := rfl
  simp only [rerank, if_neg hlen, heff] at h
  obtain ⟨⟨allScores, missIndices, ctx₁⟩, -, h⟩ := bind_ok.mp h
  obtain ⟨s, -, h⟩ := bind_ok.mp h
  cases hthrew : s.threw with
  | true =>
    rw [hthrew, if_pos rfl] at h
    cases h
    cases hok
  | false =>
    rw [hthrew, if_neg Bool.false_ne_true] at h
    obtain ⟨items, -, h⟩ := bind_ok.mp h
    obtain ⟨count, hcount, -⟩ := bind_ok.mp h
    exact .inr ((batchCount_ok (Int.natCast_nonneg _) (effectiveBatch_pos ctx call)).mp hcount).1

theorem ranks_of_fits {m : RerankModel} {ctx : Reranker} (honnx : m.backendType = .onnx)
    (hscore : ScoresAlways m score)
    (hcache : ∀ c ∈ ctx.cache, LRUCache.Serves (OwnScore score call) c)
    (hfits : Fits ctx.batchSize call) : Ranks m score call ctx := by
  by_cases hdocs : call.documents = []
  · exact ⟨_, ctx, rerank_nil ctx hdocs, fun hne => absurd hdocs hne⟩
  obtain ⟨s, hrel, hown⟩ : ∃ s, Option.Rel LRUCache.Refines ctx.cache s ∧
      ∀ s₁ ∈ s, s₁.Holds (OwnScore score call) := by
    cases hc : ctx.cache with
    | none => exact ⟨none, .none, by simp⟩
    | some c =>
      obtain ⟨s, hrefines, hholds⟩ := hcache c hc
      exact ⟨some s, .some hrefines, by simpa using hholds⟩
  obtain ⟨reply, ctx', p, hcall, -, -, hok, hstatus⟩ :=
    rerank_spec honnx hscore.scores hrel hdocs hfits
  have hreturned := hstatus hscore.returns
  obtain ⟨-, items, hitems, hperm, horder⟩ := hok hreturned
  rw [scored_own hown] at hperm
  refine ⟨reply, ctx', hcall, fun _ => ⟨hreturned, items, hitems, hperm, ?_, ?_⟩⟩
  · rw [← index_ownScores score call.query]
    exact hperm.map _
  · refine horder.imp fun h => ?_
    exact not_lt.mp (of_decide_eq_false h)

def twoDocuments (batchSize : Int) : RerankCall := ⟨ascii "a", [ascii "a", ascii "b"], batchSize, 0⟩

theorem matchModel_scoresAlways (tokenizer : TokenizerWrapper) (tokens : List Int) :
    ScoresAlways (matchModel tokenizer tokens) (matchScore tokenizer tokens) :=
  ⟨matchModel_scores tokenizer tokens, (matchModel_returns tokenizer tokens).pairs⟩

end Reranker

end LibEmbedding
