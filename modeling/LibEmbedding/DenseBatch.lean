import LibEmbedding.DenseBackends

/-!
# One batch of the ONNX path

What `pooled_buf_` holds after a batch, for a model whose output for a text does not
depend on the other texts, and exactly when the batch stays inside its buffers.
-/

namespace LibEmbedding

open Foundation

/-- The shapes an output can have: `[batch, dim]` or `[batch, seq_len, dim]`. -/
inductive OutputRank where
  | two
  | three
  deriving DecidableEq, Repr

/-- `sqrt` at the two values it is exact at. -/
structure ExactSqrt where
  sqrt : ℚ → ℚ
  zero : sqrt 0 = 0
  one : sqrt 1 = 1

/-- What both paths are configured with; the outputs of the model have rows of `outDim`. -/
structure DenseConfig where
  backendType : BackendType
  tokenizer : TokenizerWrapper
  outputKey : Bytes
  pooling : Pooling
  batchStrategy : BatchStrategy
  dim : Nat
  batchSize : Int
  batchSizePos : 0 < batchSize
  pooledBuf : List ℚ
  sqrt : ExactSqrt
  sorter : SortImpl
  rank : OutputRank
  outDim : Nat

namespace DenseConfig

def onnx (c : DenseConfig) (session : OnnxSession ℚ) : OnnxEmbedder where
  tokenizer := c.tokenizer
  session := session
  outputKey := c.outputKey
  pooling := c.pooling
  batchStrategy := c.batchStrategy
  dim := c.dim
  pooledBuf := c.pooledBuf
  sqrt := c.sqrt.sqrt
  sorter := c.sorter

/-- The longest encoding of a batch. -/
def seqLen (c : DenseConfig) (texts : List Bytes) : Nat := (c.tokenizer.encodeBatch texts).seqLength

/-- The buffers of a batch. -/
def flat (c : DenseConfig) (texts : List Bytes) : FlatBatch where
  ids := (c.tokenizer.encodeBatch texts).inputIds.flatMap id
  mask := (c.tokenizer.encodeBatch texts).attentionMask.flatMap id
  types := (c.tokenizer.encodeBatch texts).tokenTypeIds.flatMap id
  batch := texts.length
  seqLength := c.seqLen texts

/-- The rows of an output are those of its texts: one each, or one for each token and
always one for the first place. -/
def RowsOf (c : DenseConfig) (hidden : Bytes → Nat → List ℚ) (texts : List Bytes)
    (output : Tensor ℚ) : Prop :=
  match c.rank with
  | .two => output.shape = [texts.length, c.outDim] ∧
      ∀ i text, texts[i]? = some text → row c.outDim i output.data = hidden text 0
  | .three => output.shape = [texts.length, c.seqLen texts, c.outDim] ∧
      ∀ i text s, texts[i]? = some text → s < c.seqLen texts →
        s = 0 ∨ s < (c.tokenizer.encode text).length →
        row c.outDim (i * c.seqLen texts + s) output.data = hidden text s

/-- The session may throw, but what it returns for a text is `hidden` of it, whatever the
other texts of the batch. -/
structure Independent (c : DenseConfig) (session : OnnxSession ℚ) (hidden : Bytes → Nat → List ℚ) :
    Prop where
  width : ∀ text s, (hidden text s).length = c.outDim
  run : ∀ texts, session.run (c.flat texts) (c.onnx session).outputIndex = .threw ∨
    ∃ output rest,
      session.run (c.flat texts) (c.onnx session).outputIndex = .returned (output :: rest) ∧
        c.RowsOf hidden texts output

/-- The pooled row of a text before it is normalised. -/
def pooledRow (c : DenseConfig) (hidden : Bytes → Nat → List ℚ) (text : Bytes) : List ℚ :=
  match c.rank, c.pooling with
  | .three, .mean => meanOf c.outDim ((List.range (c.tokenizer.encode text).length).map (hidden text))
  | _, _ => hidden text 0

def vecOf (c : DenseConfig) (hidden : Bytes → Nat → List ℚ) (text : Bytes) : List ℚ :=
  normalizeRow c.sqrt.sqrt (c.pooledRow hidden text)

/-- A batch whose offsets are `int`s and whose texts have the token that is read. -/
structure BatchOk (c : DenseConfig) (texts : List Bytes) : Prop where
  tokens : ((texts.length * c.seqLen texts : Nat) : Int) ≤ intMax + 1
  rows : FitsInt (((texts.length - 1 : Nat) : Int) * c.outDim)
  first : c.rank = .three → c.pooling = .cls → 0 < c.seqLen texts ∨ c.outDim = 0

end DenseConfig

namespace OnnxEmbedder

theorem flattenTypes_eq {rows : List (List Int)} (h : ∀ r ∈ rows, r.length = len) :
    flattenTypes rows len = flatten rows len := by
  refine forUpTo_congr fun i hi s => ?_
  have hr := List.getElem?_eq_getElem hi
  have hlen : rows[i].length = len := h _ (List.getElem_mem hi)
  have hread : readAt rows[i] 0 len = .ok (rows[i].take len) := readAt_ok.mpr ⟨by omega, rfl⟩
  simp only [get_ok.mpr hr, ok_bind, hread]

end OnnxEmbedder

namespace DenseConfig

variable {c : DenseConfig} {session : OnnxSession ℚ} {hidden : Bytes → Nat → List ℚ}
  {texts : List Bytes}

theorem flatBatch_ok (session : OnnxSession ℚ) (texts : List Bytes) :
    (c.onnx session).flatBatch texts = .ok batch ↔
      ((texts.length * c.seqLen texts : Nat) : Int) ≤ intMax + 1 ∧ c.flat texts = batch := by
  have htotal : ((texts.length * c.seqLen texts : Nat) : Int) ≤ intMax + 1 →
      (c.onnx session).flatBatch texts = .ok (c.flat texts) := by
    intro h
    have hids := flatten_total (c.tokenizer.length_of_mem_inputIds texts)
      (by rwa [TokenizerWrapper.length_inputIds])
    have hmask := flatten_total (c.tokenizer.length_of_mem_attentionMask texts)
      (by rwa [TokenizerWrapper.length_attentionMask])
    have htypes := flatten_total (c.tokenizer.length_of_mem_tokenTypeIds texts)
      (by rwa [TokenizerWrapper.length_tokenTypeIds])
    rw [← OnnxEmbedder.flattenTypes_eq (c.tokenizer.length_of_mem_tokenTypeIds texts)] at htypes
    simp only [OnnxEmbedder.flatBatch, onnx, hids, hmask, htypes, ok_bind]
    rfl
  constructor
  · intro h
    obtain ⟨ids, hids, -⟩ := bind_ok.mp h
    have hfits := flatten_fits hids
    rw [TokenizerWrapper.length_inputIds] at hfits
    exact ⟨hfits, Except.ok.inj ((htotal hfits).symm.trans h)⟩
  · rintro ⟨hfits, rfl⟩
    exact htotal hfits

theorem filter_lt_range (h : m ≤ n) : (List.range n).filter (· < m) = List.range m := by
  obtain ⟨k, rfl⟩ := Nat.exists_eq_add_of_le h
  rw [List.range_add, List.filter_append, List.filter_eq_self.mpr (by simp),
    List.filter_eq_nil_iff.mpr (by simp), List.append_nil]

/-- The mask of a batch is one at the tokens of a text. -/
theorem mask_getElem? {i s : Nat} (hi : texts[i]? = some text) (hs : s < c.seqLen texts) :
    ((c.flat texts).mask.drop (i * c.seqLen texts))[s]? =
      some (if s < (c.tokenizer.encode text).length then 1 else 0) := by
  have hrow : row (c.seqLen texts) i (c.flat texts).mask = TokenizerWrapper.resize
      (List.replicate (c.tokenizer.encode text).length 1) (c.seqLen texts) 0 :=
    row_flatMap (c.tokenizer.length_of_mem_attentionMask texts)
      (c.tokenizer.attentionMask_getElem? hi)
  have hle : (c.tokenizer.encode text).length ≤ c.seqLen texts :=
    c.tokenizer.length_encode_le_seqLength (List.mem_of_getElem? hi)
  have hplace := congrArg (·[s]?) hrow
  simp only [getElem?_row, if_pos hs] at hplace
  rw [List.getElem?_drop, hplace, TokenizerWrapper.resize_of_le (by simpa using hle),
    List.getElem?_append, List.length_replicate]
  split
  · rename_i hlt
    simp [hlt]
  · rename_i hlt
    rw [List.getElem?_replicate, if_pos (by omega)]

/-- The mask of a batch keeps the tokens of each text. -/
theorem keptTokens_eq {tensor : List ℚ} {i : Nat} (hi : texts[i]? = some text) :
    keptTokens (tensor.drop (i * c.seqLen texts * c.outDim))
      ((c.flat texts).mask.drop (i * c.seqLen texts)) c.outDim (c.seqLen texts) =
    (List.range (c.tokenizer.encode text).length).map fun s =>
      row c.outDim (i * c.seqLen texts + s) tensor := by
  have hle : (c.tokenizer.encode text).length ≤ c.seqLen texts :=
    c.tokenizer.length_encode_le_seqLength (List.mem_of_getElem? hi)
  have hfilter : ∀ s ∈ List.range (c.seqLen texts),
      decide (((c.flat texts).mask.drop (i * c.seqLen texts)).getD s 0 ≠ 0) =
        decide (s < (c.tokenizer.encode text).length) := by
    intro s hs
    rw [List.getD_eq_getElem?_getD, mask_getElem? hi (List.mem_range.mp hs), Option.getD_some]
    split <;> simp_all
  rw [keptTokens, List.filter_congr hfilter, filter_lt_range hle]
  exact List.map_congr_left fun s _ => row_drop _

/-- What the pooling leaves: the pooled row of each text. -/
def Pooled (c : DenseConfig) (hidden : Bytes → Nat → List ℚ) (texts : List Bytes)
    (buf : List ℚ) : Prop :=
  buf.length = texts.length * c.outDim ∧
    ∀ i text, texts[i]? = some text → row c.outDim i buf = c.pooledRow hidden text

theorem pool_two {output : Tensor ℚ} {buf : List ℚ} (hrank : c.rank = .two)
    (hrows : c.RowsOf hidden texts output)
    (hbuf : buf.length = texts.length * c.outDim) :
    ∃ pooled, (c.onnx session).pool output.data (c.flat texts).mask texts.length 0 c.outDim 2 buf =
      .ok pooled ∧ c.Pooled hidden texts pooled := by
  simp only [RowsOf, hrank] at hrows
  obtain ⟨hshape, hrows⟩ := hrows
  have hdata : output.data.length = texts.length * c.outDim := by
    rw [output.sized, hshape]
    simp
  have hcopy := copyPooled_eq hdata hbuf
  refine ⟨output.data, ?_, hdata, fun i text hi => ?_⟩
  · unfold OnnxEmbedder.pool
    split
    · exact hcopy
    · exact hcopy
  · rw [hrows i text hi, pooledRow, hrank]

theorem pool_three {output : Tensor ℚ} {buf : List ℚ} (hrank : c.rank = .three)
    (hwidth : ∀ text s, (hidden text s).length = c.outDim) (hrows : c.RowsOf hidden texts output)
    (hbuf : buf.length = texts.length * c.outDim)
    (hfirst : c.pooling = .cls → 0 < c.seqLen texts ∨ c.outDim = 0) :
    ∃ pooled, (c.onnx session).pool output.data (c.flat texts).mask texts.length (c.seqLen texts)
      c.outDim 3 buf = .ok pooled ∧ c.Pooled hidden texts pooled := by
  simp only [RowsOf, hrank] at hrows
  obtain ⟨hshape, hrows⟩ := hrows
  have hdata : output.data.length = texts.length * c.seqLen texts * c.outDim := by
    rw [output.sized, hshape]
    simp [Nat.mul_assoc]
  have hmask : (c.flat texts).mask.length = texts.length * c.seqLen texts := by
    have hlen := length_flatMap (f := id) (c.tokenizer.length_of_mem_attentionMask texts)
    rwa [TokenizerWrapper.length_attentionMask] at hlen
  unfold OnnxEmbedder.pool
  cases hpool : c.pooling with
  | cls =>
    obtain ⟨pooled, hcls, hlen, hcopied⟩ := poolCls_copies hdata hbuf (hfirst hpool)
    refine ⟨pooled, by simp only [onnx, hpool, hcls], hlen, fun i text hi => ?_⟩
    have hi' : i < texts.length := (List.getElem?_eq_some_iff.mp hi).1
    rw [hcopied i hi', pooledRow, hrank, hpool]
    rcases hfirst hpool with hseq | hzero
    · exact hrows i text 0 hi hseq (.inl rfl)
    · have hnil : hidden text 0 = [] := List.length_eq_zero_iff.mp ((hwidth text 0).trans hzero)
      rw [hnil, hzero, row, List.take_zero]
  | mean =>
    obtain ⟨pooled, hmean, hlen, havg⟩ := poolMean_averages hdata hmask hbuf
    refine ⟨pooled, by simp only [onnx, hpool, hmean], hlen, fun i text hi => ?_⟩
    have hi' : i < texts.length := (List.getElem?_eq_some_iff.mp hi).1
    have hle : (c.tokenizer.encode text).length ≤ c.seqLen texts :=
      c.tokenizer.length_encode_le_seqLength (List.mem_of_getElem? hi)
    rw [havg i hi', keptTokens_eq hi, pooledRow, hrank, hpool]
    congr 1
    refine List.map_congr_left fun s hs => ?_
    have hs := List.mem_range.mp hs
    exact hrows i text s hi (by omega) (.inr hs)

theorem outputDims_eq (session : OnnxSession ℚ) {output : Tensor ℚ}
    (hrows : c.RowsOf hidden texts output) :
    (c.onnx session).outputDims output.shape = .ok (texts.length,
      if c.rank = .three then c.seqLen texts else 0, c.outDim) ∧
    output.shape.length = if c.rank = .three then 3 else 2 := by
  unfold RowsOf at hrows
  split at hrows
  · rename_i hrank
    rw [hrows.1, hrank]
    exact ⟨rfl, rfl⟩
  · rename_i hrank
    rw [hrows.1, hrank]
    exact ⟨rfl, rfl⟩

/-- A pooled batch is normalised row after row. -/
theorem normalize_pooled {pooled : List ℚ} (hpooled : c.Pooled hidden texts pooled)
    (hrows : FitsInt (((texts.length - 1 : Nat) : Int) * c.outDim)) :
    ∃ out, l2Normalize c.sqrt.sqrt pooled texts.length c.outDim = .ok out ∧
      out.length = texts.length * c.outDim ∧
      ∀ i text, texts[i]? = some text → row c.outDim i out = c.vecOf hidden text := by
  obtain ⟨out, hnorm, hlen, hout⟩ := l2Normalize_normalizes c.sqrt.sqrt hpooled.1 hrows
  refine ⟨out, hnorm, hlen, fun i text hi => ?_⟩
  rw [hout i (List.getElem?_eq_some_iff.mp hi).1, hpooled.2 i text hi, vecOf]

/-- A batch that is well formed throws or leaves the vectors of its texts, row after
row. -/
theorem pooledBatch_total (h : c.Independent session hidden) (hok : c.BatchOk texts)
    (buf : List ℚ) : (c.onnx session).pooledBatch buf texts = .ok .threw ∨ ∃ pooled,
      (c.onnx session).pooledBatch buf texts = .ok (.returned (pooled, c.outDim)) ∧
      pooled.length = texts.length * c.outDim ∧
      ∀ i text, texts[i]? = some text → row c.outDim i pooled = c.vecOf hidden text := by
  have hflat := (flatBatch_ok session texts).mpr ⟨hok.tokens, rfl⟩
  have hsession : (c.onnx session).session = session := rfl
  rcases h.run texts with hthrew | ⟨output, rest, hrun, hrows⟩
  · left
    simp only [OnnxEmbedder.pooledBatch, hflat, ok_bind, hsession, hthrew]
    rfl
  right
  obtain ⟨hdims, hndim⟩ := outputDims_eq session hrows
  have hbuf := TokenizerWrapper.length_resize buf (texts.length * c.outDim) 0
  have hpool : ∃ pooled, (c.onnx session).pool output.data (c.flat texts).mask texts.length
      (if c.rank = .three then c.seqLen texts else 0) c.outDim output.shape.length
      (TokenizerWrapper.resize buf (texts.length * c.outDim) 0) = .ok pooled ∧
      c.Pooled hidden texts pooled := by
    rw [hndim]
    cases hrank : c.rank with
    | two => exact pool_two hrank hrows hbuf
    | three => exact pool_three hrank h.width hrows hbuf (hok.first hrank)
  obtain ⟨pooled, hpool, hpooled⟩ := hpool
  obtain ⟨out, hnorm, hlen, hout⟩ := normalize_pooled hpooled hok.rows
  refine ⟨out, ?_, hlen, hout⟩
  have hpoolOutput : (c.onnx session).poolOutput buf (c.flat texts) output =
      .ok (out, c.outDim) := by
    have hsize : (c.flat texts).batch = texts.length := rfl
    have hsqrt : (c.onnx session).sqrt = c.sqrt.sqrt := rfl
    simp only [OnnxEmbedder.poolOutput, hdims, ok_bind, hsize, hpool, hsqrt, hnorm]
    rfl
  have hget : get (output :: rest) 0 = .ok output := rfl
  simp only [OnnxEmbedder.pooledBatch, hflat, ok_bind, hsession, hrun, hget, hpoolOutput]
  rfl

/-- A batch that returns is well formed. -/
theorem batchOk_of_pooledBatch (h : c.Independent session hidden) (hne : texts ≠ [])
    (hok : (c.onnx session).pooledBatch buf texts = .ok (.returned out)) : c.BatchOk texts := by
  have hpos : 0 < texts.length := List.length_pos_iff.mpr hne
  have hsession : (c.onnx session).session = session := rfl
  obtain ⟨batch, hflat, hok⟩ := bind_ok.mp hok
  obtain ⟨htokens, rfl⟩ := (flatBatch_ok session texts).mp hflat
  rcases h.run texts with hthrew | ⟨output, rest, hrun, hrows⟩
  · rw [hsession, hthrew] at hok
    cases hok
  obtain ⟨hdims, hndim⟩ := outputDims_eq session hrows
  have hget : get (output :: rest) 0 = .ok output := rfl
  simp only [hsession, hrun, hget, ok_bind, OnnxEmbedder.poolOutput, hdims, bind_ok] at hok
  obtain ⟨-, ⟨pooled, hpool, normalized, hnorm, -⟩, -⟩ := hok
  refine ⟨htokens, l2Normalize_fits hpos hnorm, fun hrank hcls => ?_⟩
  have hpooling : (c.onnx session).pooling = .cls := hcls
  simp only [OnnxEmbedder.pool, hpooling, hndim, hrank, if_true] at hpool
  have hdata : output.data.length = texts.length * c.seqLen texts * c.outDim := by
    simp only [RowsOf, hrank] at hrows
    rw [output.sized, hrows.1]
    simp [Nat.mul_assoc]
  exact poolCls_readable hdata hpos hpool

end DenseConfig

end LibEmbedding
