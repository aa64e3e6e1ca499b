import LibEmbedding.GgufEmbed

/-!
# Documents do not see each other

What a ready session makes of a text is a function of the text alone: the ids of its own
tokens through the transformer, pooled. A batch of texts, padded to the longest of them,
gives each text that result.
-/

namespace LibEmbedding

open Foundation

variable {α : Type} [Field α] [LinearOrder α] (fns : MathFns α)

-- ---------------------------------------------------------------------------
-- The inputs of a graph
-- ---------------------------------------------------------------------------

section Inputs

theorem getElem?_flatMap {rows : List (List β)} (h : ∀ r ∈ rows, r.length = d)
    (hr : rows[b]? = some r) (hj : j < d) : (rows.flatMap id)[j + d * b]? = r[j]? := by
  have hrow := congrArg (·[j]?) (row_flatMap h hr)
  rw [getElem?_row, if_pos hj] at hrow
  rw [← hrow, Nat.add_comm, Nat.mul_comm]
  rfl

theorem getD_resize_of_lt {ids : List Int} (hj : j < ids.length) (hle : ids.length ≤ n)
    (fill : Int) : (TokenizerWrapper.resize ids n fill)[j]? = ids[j]? := by
  rw [TokenizerWrapper.resize_of_le hle, List.getElem?_append_left hj]

variable (t : TokenizerWrapper) (texts : List Bytes)

/-- The ids of document `b`. -/
def docIds (b : Nat) : List Int := t.encode (texts.getD b [])

theorem docIds_length_le (hb : b < texts.length) :
    (docIds t texts b).length ≤ (t.encodeBatch texts).seqLength := by
  rw [docIds, List.getD_eq_getElem?_getD, List.getElem?_eq_getElem hb]
  exact t.length_encode_le_seqLength (List.getElem_mem hb)

theorem texts_pos (h : 0 < (t.encodeBatch texts).seqLength) : 0 < texts.length := by
  rcases texts with _ | ⟨text, texts⟩
  · cases h
  · exact Nat.succ_pos _

/-- The documents of a batch that has tokens. -/
def docsOf (h : 0 < (t.encodeBatch texts).seqLength) : Ragged texts.length :=
  ⟨(t.encodeBatch texts).seqLength, fun b => (docIds t texts b).length,
    fun _ hb => docIds_length_le t texts hb, h, texts_pos t texts h⟩

variable {t texts}

theorem inputIds_docIds (hb : b < texts.length) : (t.encodeBatch texts).inputIds[b]? = some
    (TokenizerWrapper.resize (docIds t texts b) (t.encodeBatch texts).seqLength t.padTokenId) := by
  have htext := List.getElem?_eq_getElem hb
  rw [t.inputIds_getElem? htext, docIds, List.getD_eq_getElem?_getD, htext, Option.getD_some]

theorem attentionMask_docIds (hb : b < texts.length) : (t.encodeBatch texts).attentionMask[b]? =
    some (TokenizerWrapper.resize (List.replicate (docIds t texts b).length 1)
      (t.encodeBatch texts).seqLength 0) := by
  have htext := List.getElem?_eq_getElem hb
  rw [t.attentionMask_getElem? htext, docIds, List.getD_eq_getElem?_getD, htext, Option.getD_some]

theorem mem_batchPositions {id : Int} (hid : id ∈ batchPositions batch seqLen) :
    0 ≤ id ∧ id < (seqLen : Int) := by
  obtain ⟨_, -, hid⟩ := List.mem_flatMap.mp hid
  obtain ⟨j, hj, rfl⟩ := List.mem_map.mp hid
  exact ⟨Int.natCast_nonneg j, Int.ofNat_lt.mpr (List.mem_range.mp hj)⟩

theorem length_positions (batch seqLen : Nat) :
    (batchPositions batch seqLen).length = seqLen * batch := by
  rw [batchPositions, length_flatMap (d := seqLen) (by simp), List.length_range, Nat.mul_comm]

theorem getD_positions (hb : b < batch) (hj : j < seqLen) :
    (batchPositions batch seqLen).getD (j + seqLen * b) 0 = j := by
  have hrow := congrArg (·[j]?) (row_flatMap (d := seqLen)
    (f := fun _ : Nat => (List.range seqLen).map Int.ofNat) (l := List.range batch) (i := b) (x := b)
    (by simp) (by simp [hb]))
  rw [getElem?_row, if_pos hj, Nat.mul_comm, Nat.add_comm] at hrow
  rw [List.getD_eq_getElem?_getD, batchPositions, hrow]
  simp [hj]

/-- Everything a session feeds into the graph of a batch names a row of the tables. -/
theorem feeds_docsOf {w : Weights} (hseq : 0 < (t.encodeBatch texts).seqLength)
    (hids : t.IdsBelow w.head.tokEmbd.ne1) (hpositions : t.maxLength ≤ w.head.posEmbd.ne1) :
    Feeds w (docsOf t texts hseq) (docIds t texts) ((t.encodeBatch texts).inputIds.flatMap id)
      (batchPositions texts.length (t.encodeBatch texts).seqLength) where
  lengthTokens := by
    rw [length_flatMap (f := id) (t.length_of_mem_inputIds texts), t.length_inputIds, Nat.mul_comm]
    rfl
  lengthPositions := length_positions ..
  length _ _ := rfl
  token b hb j hj := by
    have hle := docIds_length_le t texts hb
    have hseqLen : (docsOf t texts hseq).seqLen = (t.encodeBatch texts).seqLength := rfl
    rw [List.getD_eq_getElem?_getD, hseqLen, getElem?_flatMap (t.length_of_mem_inputIds texts)
      (inputIds_docIds hb) (lt_of_lt_of_le hj hle), getD_resize_of_lt hj hle,
      List.getD_eq_getElem?_getD]
  position b hb j hj := getD_positions hb hj
  tokensBelow id hid := by
    obtain ⟨row, hrow, hid⟩ := List.mem_flatMap.mp hid
    exact hids.encodeBatch texts row hrow id hid
  positionsBelow id hid := by
    obtain ⟨hpos, hlt⟩ := mem_batchPositions hid
    have hmax : (t.encodeBatch texts).seqLength ≤ t.maxLength := min_le_right ..
    exact ⟨hpos, lt_of_lt_of_le hlt (Int.ofNat_le.mpr (hmax.trans hpositions))⟩

theorem getD_mask {b : Nat} (hb : b < texts.length) (j : Nat) :
    (row (t.encodeBatch texts).seqLength b ((t.encodeBatch texts).attentionMask.flatMap id)).getD
      j 0 = if j < (docIds t texts b).length then 1 else 0 := by
  have hle := docIds_length_le t texts hb
  rw [row_flatMap (f := id) (t.length_of_mem_attentionMask texts) (attentionMask_docIds hb), id,
    TokenizerWrapper.resize_of_le (by rwa [List.length_replicate])]
  simp only [List.getD_eq_getElem?_getD, List.getElem?_append, List.getElem?_replicate,
    List.length_replicate]
  split
  · rfl
  · split <;> rfl

/-- The mask keeps the tokens of a document. -/
theorem mask_kept {b j : Nat} (hb : b < texts.length)
    (hj : j < (t.encodeBatch texts).seqLength) :
    (((t.encodeBatch texts).attentionMask.flatMap id).drop
      (b * (t.encodeBatch texts).seqLength)).getD j 0 ≠ 0 ↔ j < (docIds t texts b).length := by
  have hentry := getD_mask (t := t) hb j
  rw [row, List.getD_eq_getElem?_getD, List.getElem?_take_of_lt hj,
    ← List.getD_eq_getElem?_getD] at hentry
  rw [hentry]
  split <;> simp [*]

omit [LinearOrder α] in
theorem buildMask_masksPadding (hseq : 0 < (t.encodeBatch texts).seqLength) :
    MasksPadding (α := α) (buildMask ((t.encodeBatch texts).attentionMask.flatMap id)
      (t.encodeBatch texts).seqLength texts.length) (docsOf t texts hseq) := by
  refine ⟨_, ⟨rfl, rfl, rfl, rfl, rfl, fun _ _ _ _ _ _ _ _ => rfl⟩, fun b hb hlen j _ e _ => ?_⟩
  let vb := row (t.encodeBatch texts).seqLength b ((t.encodeBatch texts).attentionMask.flatMap id)
  have hentry : vb.getD e 0 = if e < (docIds t texts b).length then 1 else 0 := getD_mask hb e
  have hreal : vb.all (· = 0) = false := by
    have hfirst : vb.getD 0 0 = 1 := (getD_mask hb 0).trans (if_pos hlen)
    rw [List.all_eq_false]
    refine ⟨vb.getD 0 0, ?_, by rw [hfirst]; decide⟩
    have hpos : 0 < vb.length := by
      by_contra hempty
      rw [List.length_eq_zero_iff.mp (Nat.eq_zero_of_not_pos hempty)] at hfirst
      cases hfirst
    rw [List.getD_eq_getElem?_getD, List.getElem?_eq_getElem hpos]
    exact List.getElem_mem hpos
  show (if vb.all (· = 0) ∧ j = e then some 0 else maskEntry vb e) = _
  rw [hreal, if_neg (by simp), maskEntry, hentry]
  show _ = if e < (docIds t texts b).length then some 0 else none
  split <;> rfl

end Inputs

-- ---------------------------------------------------------------------------
-- One batch
-- ---------------------------------------------------------------------------

/-- What a session makes of the ids of a document. -/
def docResult (w : Weights) (specialIds ids : List Int) : SparseResult α :=
  dropSpecialTokens specialIds (pooled fns.activation w.hparams.nVocab.toNat
    ((List.range ids.length).map fun j =>
      (List.range w.hparams.nVocab.toNat).map (Transformer.logits fns w ids j)))

namespace SparseSession

/-- A session with consistent weights, tables for everything its tokenizer emits, and no
graph over other weights. -/
structure Ready (s : SparseSession) (w : Weights) : Prop where
  weights : s.weights = some w
  graph : ∀ g, s.graph = some g → g.generation = s.generation ∧ g.weights = w
  ids : s.tok.IdsBelow w.hparams.nVocab.toNat
  vocabSize : s.vocabSize = w.hparams.nVocab
  runnable : w.Runnable
  positions : s.tok.maxLength ≤ w.head.posEmbd.ne1

variable {s : SparseSession} {w : Weights}

theorem Ready.graphFor (h : s.Ready w) (seqLen batch : Nat) :
    ∃ g, s.graphFor .ample w seqLen batch = some g ∧ g.generation = s.generation ∧
      g.weights = w := by
  unfold SparseSession.graphFor
  split
  · rename_i g hg
    obtain ⟨hg, -⟩ := Option.filter_eq_some_iff.mp hg
    exact ⟨g, rfl, h.graph g hg⟩
  · exact ⟨⟨w, s.generation, seqLen, batch⟩, rfl, rfl, rfl⟩

theorem Ready.withGraph (h : s.Ready w) (hgeneration : g.generation = s.generation)
    (hweights : g.weights = w) : Ready { s with graph := some g } w where
  weights := h.weights
  graph g' hg' := by
    cases hg'
    exact ⟨hgeneration, hweights⟩
  ids := h.ids
  vocabSize := h.vocabSize
  runnable := h.runnable
  positions := h.positions

/-- The tokens of a document come first. -/
theorem filter_range {keep : Nat → Prop} [DecidablePred keep] (hle : len ≤ n)
    (h : ∀ j < n, keep j ↔ j < len) : (List.range n).filter keep = List.range len := by
  obtain ⟨rest, rfl⟩ := Nat.exists_eq_add_of_le hle
  rw [List.range_add, List.filter_append]
  have hhead : (List.range len).filter keep = List.range len := by
    refine List.filter_eq_self.mpr fun j hj => ?_
    have hj := List.mem_range.mp hj
    simpa using (h j (Nat.lt_add_right rest hj)).mpr hj
  have htail : ((List.range rest).map (len + ·)).filter keep = [] := by
    rw [List.filter_eq_nil_iff]
    intro e he
    obtain ⟨d, hd, rfl⟩ := List.mem_map.mp he
    have hnot := (h (len + d) (Nat.add_lt_add_left (List.mem_range.mp hd) len)).not
    simpa using hnot.mpr (Nat.not_lt.mpr (Nat.le_add_right len d))
  rw [hhead, htail, List.append_nil]

omit [Field α] [LinearOrder α] in
/-- The row of a token in the buffer of logits. -/
theorem row_logits {r : Ragged batch} {z : Tensor4 α} {docs : Nat → Hidden α} {b j : Nat}
    (hz : HoldsDocs z vocab r docs) (hb : b < batch) (hj : j < r.len b) :
    row vocab (b * r.seqLen + j) ((List.range (vocab * r.seqLen * batch)).map z.flat) =
      (List.range vocab).map (docs b j) := by
  obtain ⟨h, hcolumns, hdocs⟩ := hz
  have hcolumn : j + r.seqLen * b < r.seqLen * batch := by
    have hrow := row_bound hb r.seqLen
    have hjS := lt_of_lt_of_le hj (r.fits b hb)
    rw [Nat.mul_comm r.seqLen batch, Nat.mul_comm r.seqLen b]
    omega
  apply List.ext_getElem?
  intro v
  rw [getElem?_row]
  by_cases hv : v < vocab
  · have hposition : (b * r.seqLen + j) * vocab + v =
        v + vocab * (j + r.seqLen * b + r.seqLen * batch * (0 + 1 * 0)) := by ring
    have hinside : (b * r.seqLen + j) * vocab + v < vocab * r.seqLen * batch := by
      calc (b * r.seqLen + j) * vocab + v < (b * r.seqLen + j) * vocab + vocab :=
            Nat.add_lt_add_left hv _
        _ = vocab * (j + r.seqLen * b + 1) := by ring
        _ ≤ vocab * (r.seqLen * batch) := Nat.mul_le_mul_left vocab hcolumn
        _ = vocab * r.seqLen * batch := (Nat.mul_assoc ..).symm
    rw [if_pos hv, List.getElem?_map, List.getElem?_range hinside, Option.map_some, hposition,
      hcolumns.flat hv hcolumn Nat.one_pos Nat.one_pos, hdocs b hb j hj v hv]
    simp [hv]
  · rw [if_neg hv, List.getElem?_eq_none (by simpa using hv)]

omit [Field α] [LinearOrder α] in
theorem keptRows_docs {r : Ragged batch} {z : Tensor4 α} {docs : Nat → Hidden α} {b : Nat}
    (hz : HoldsDocs z vocab r docs) (hb : b < batch) {valid : List Int}
    (hvalid : ∀ j < r.seqLen, (valid.drop (b * r.seqLen)).getD j 0 ≠ 0 ↔ j < r.len b) :
    keptRows (((List.range (vocab * r.seqLen * batch)).map z.flat).drop (b * r.seqLen * vocab)) vocab
        (valid.drop (b * r.seqLen)) r.seqLen =
      (List.range (r.len b)).map fun j => (List.range vocab).map (docs b j) := by
  rw [keptRows, filter_range (r.fits b hb) hvalid]
  refine List.map_congr_left fun j hj => ?_
  rw [row_drop, row_logits hz hb (List.mem_range.mp hj)]

theorem docResult_nil (w : Weights) (specialIds : List Int) : docResult fns w specialIds [] = [] := by
  simp [docResult, pooled, weight, dropSpecialTokens]

theorem map_docIds (t : TokenizerWrapper) (texts : List Bytes) (f : List Int → β) :
    ((List.range texts.length).map fun b => f (docIds t texts b)) =
      texts.map fun text => f (t.encode text) := by
  apply List.ext_getElem
  · simp
  · intro b hb hb'
    have hb := by simpa using hb
    simp [docIds, hb]

/-- The graph of a batch that has tokens yields the logits of its documents. -/
theorem Ready.runGraph (h : s.Ready w) {texts : List Bytes}
    (hseq : 0 < (s.tok.encodeBatch texts).seqLength) :
    ∃ z g, s.runGraph fns .ample w ((s.tok.encodeBatch texts).inputIds.flatMap id)
        (batchPositions texts.length (s.tok.encodeBatch texts).seqLength)
        ((s.tok.encodeBatch texts).attentionMask.flatMap id) (s.tok.encodeBatch texts).seqLength
        texts.length =
      .ok (some ((List.range (w.hparams.nVocab.toNat * (s.tok.encodeBatch texts).seqLength *
        texts.length)).map z.flat), { s with graph := some g }) ∧
      HoldsDocs z w.hparams.nVocab.toNat (docsOf s.tok texts hseq)
        (fun b => Transformer.logits fns w (docIds s.tok texts b)) ∧
      Ready { s with graph := some g } w := by
  obtain ⟨g, hg, hgeneration, hweights⟩ :=
    h.graphFor (s.tok.encodeBatch texts).seqLength texts.length
  have hids : s.tok.IdsBelow w.head.tokEmbd.ne1 := by
    rw [h.runnable.head.tokEmbd.ne1]
    exact h.ids
  obtain ⟨z, hz, hdocs⟩ := buildLogits_holds fns h.runnable (buildMask_masksPadding hseq)
    (feeds_docsOf hseq hids h.positions)
  refine ⟨z, g, ?_, hdocs, h.withGraph hgeneration hweights⟩
  obtain ⟨_, hcolumns, -⟩ := hdocs
  have hnumel : s.vocabSize.toNat * (s.tok.encodeBatch texts).seqLength * texts.length ≤
      z.numel := by
    rw [hcolumns.numel, h.vocabSize, Nat.mul_one, Nat.mul_one, ← Nat.mul_assoc]
    rfl
  unfold SparseSession.runGraph
  rw [hg]
  dsimp only
  have hcompute : GraphEnv.ample.compute = true := rfl
  rw [ensure_pos hgeneration, ok_bind, if_pos hcompute, hweights,
    show buildLogits fns w _ _ _ (s.tok.encodeBatch texts).seqLength _ = .ok z from hz, ok_bind,
    ensure_pos hnumel, ok_bind, h.vocabSize]
  rfl

/-- The tokens of a batch are counted in an `int`. -/
theorem mulInt_tokens {tok : TokenizerWrapper} {texts : List Bytes}
    (hfits : ((texts.length * (tok.encodeBatch texts).seqLength : Nat) : Int) ≤ intMax) :
    mulInt texts.length (tok.encodeBatch texts).seqLength =
      .ok ((texts.length : Int) * (tok.encodeBatch texts).seqLength) := by
  refine narrow_eq ⟨?_, by exact_mod_cast hfits⟩
  have hmin : intMin ≤ 0 := by decide
  exact hmin.trans (by positivity)

/-- A batch gives every text the result of its own tokens. -/
theorem embedBatch_ready (h : s.Ready w) (texts : List Bytes)
    (hfits : ((texts.length * (s.tok.encodeBatch texts).seqLength : Nat) : Int) ≤ intMax) :
    ∃ graph, s.embedBatch fns .ample w texts =
        .ok (texts.map fun text => docResult fns w s.specialIds (s.tok.encode text),
          { s with graph }) ∧
      Ready { s with graph } w := by
  unfold embedBatch
  dsimp only
  rcases Nat.eq_zero_or_pos (s.tok.encodeBatch texts).seqLength with hzero | hseq
  · refine ⟨s.graph, ?_, h⟩
    have hempty : ∀ text ∈ texts, docResult fns w s.specialIds (s.tok.encode text) = [] := by
      intro text htext
      have hle := s.tok.length_encode_le_seqLength htext
      rw [hzero] at hle
      rw [List.length_eq_zero_iff.mp (Nat.le_zero.mp hle), docResult_nil]
    rw [if_pos hzero, List.map_congr_left hempty, List.map_const']
    rfl
  · obtain ⟨z, g, hrun, hdocs, hready⟩ := h.runGraph fns hseq
    refine ⟨some g, ?_, hready⟩
    have hproduct := mulInt_tokens hfits
    have hlogits : ((List.range (w.hparams.nVocab.toNat * (s.tok.encodeBatch texts).seqLength *
        texts.length)).map z.flat).length =
          texts.length * (s.tok.encodeBatch texts).seqLength * w.hparams.nVocab.toNat := by
      rw [List.length_map, List.length_range]
      ring
    have hmask : ((s.tok.encodeBatch texts).attentionMask.flatMap id).length =
        texts.length * (s.tok.encodeBatch texts).seqLength := by
      rw [length_flatMap (f := id) (s.tok.length_of_mem_attentionMask texts),
        s.tok.length_attentionMask]
    let m : MlmBatch α := ⟨texts.length, (s.tok.encodeBatch texts).seqLength,
      w.hparams.nVocab.toNat, _, _, hlogits, hmask⟩
    have hrows : ∀ b ∈ List.range texts.length,
        dropSpecialTokens s.specialIds (pooled fns.activation w.hparams.nVocab.toNat (m.rows b)) =
          docResult fns w s.specialIds (docIds s.tok texts b) := by
      intro b hb
      have hb := List.mem_range.mp hb
      have hkept : m.rows b = (List.range (docIds s.tok texts b).length).map fun j =>
          (List.range w.hparams.nVocab.toNat).map
            (Transformer.logits fns w (docIds s.tok texts b) j) := by
        exact keptRows_docs hdocs hb fun j hj => mask_kept hb hj
      rw [hkept]
      rfl
    have hpool := ggufPool_eq fns.activation m s.specialIds
    rw [if_neg hseq.ne', hproduct, ok_bind, hrun, ok_bind]
    dsimp only
    rw [h.vocabSize, hpool, ok_bind, List.map_congr_left hrows, map_docIds]
    rfl

/-- The batches of a call do not overflow the counter of their tokens. -/
def Fits (s : SparseSession) (texts : List Bytes) (batchSize : Int) : Prop :=
  ∀ k < sliceCount (batchOf batchSize) texts.length,
    (((slice (batchOf batchSize) texts k).length *
      (s.tok.encodeBatch (slice (batchOf batchSize) texts k)).seqLength : Nat) : Int) ≤ intMax

theorem batchOf_pos (batchSize : Int) : 0 < batchOf batchSize := by
  unfold batchOf
  split <;> omega

theorem embed_of_weights (h : s.weights = some w) (env : GraphEnv) (texts : List Bytes)
    (batchSize : Int) : s.embed fns env texts batchSize =
      forUpTo (sliceCount (batchOf batchSize) texts.length)
        (embedStep fns env w (batchOf batchSize) texts) ([], s) := by
  simp only [embed, h]

/-- A call gives every text the result of its own tokens. -/
theorem embed_ready (h : s.Ready w) (texts : List Bytes) (batchSize : Int)
    (hfits : s.Fits texts batchSize) :
    ∃ graph, s.embed fns .ample texts batchSize =
        .ok (texts.map fun text => docResult fns w s.specialIds (s.tok.encode text),
          { s with graph }) ∧
      Ready { s with graph } w := by
  let result (text : Bytes) : SparseResult α := docResult fns w s.specialIds (s.tok.encode text)
  let n := batchOf batchSize
  let inv (k : Nat) (state : List (SparseResult α) × SparseSession) : Prop :=
    state.1 = (texts.take (k * n)).map result ∧
      ∃ graph, state.2 = { s with graph } ∧ Ready { s with graph } w
  have hloop : ∃ final, forUpTo (sliceCount n texts.length) (embedStep fns .ample w n texts)
      ([], s) = .ok final ∧ inv (sliceCount n texts.length) final := by
    refine forUpTo_total inv ⟨by simp, s.graph, rfl, h⟩ ?_
    rintro k ⟨results, s'⟩ hk ⟨hresults, graph, hs', hready⟩
    dsimp only at hresults hs'
    subst hs'
    obtain ⟨graph', hbatch, hready'⟩ := embedBatch_ready fns hready (slice n texts k) (hfits k hk)
    refine ⟨(results ++ (slice n texts k).map result, { s with graph := graph' }), ?_, ?_, graph',
      rfl, hready'⟩
    · simp only [embedStep]
      rw [hbatch, ok_bind]
      rfl
    · rw [hresults, ← List.map_append, take_append_slice]
  obtain ⟨⟨results, s'⟩, hrun, hresults, graph, hs', hready⟩ := hloop
  dsimp only at hresults hs'
  subst hs'
  refine ⟨graph, ?_, hready⟩
  rw [embed_of_weights fns h.weights, hrun, hresults, take_slices (batchOf_pos batchSize)]

end SparseSession

end LibEmbedding
