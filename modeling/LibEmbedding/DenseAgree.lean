import LibEmbedding.DenseLlama
import LibEmbedding.DenseUnit

/-!
# `embed` and `embed_stream`

When the vectors of the stream are the rows of the matrix. The matrix takes row `i` of a
batch from offset `i * dim` of `pooled_buf_`, where it starts at `i * out_dim`.
-/

namespace LibEmbedding

open Foundation

namespace DenseConfig

variable {c : DenseConfig} {session : OnnxSession ℚ} {hidden : Bytes → Nat → List ℚ}
  {texts : List Bytes}

-- ---------------------------------------------------------------------------
-- Calls
-- ---------------------------------------------------------------------------

/-- The batch size of a call that got `batchSize`. -/
def callSize (c : DenseConfig) (batchSize : Int) : Int :=
  if batchSize ≤ 0 then c.batchSize else batchSize

/-- The `effective_batch` of `embed`. -/
def embedSize (c : DenseConfig) (batchSize : Int) : Int :=
  if c.batchStrategy = .sequential then 1 else c.callSize batchSize

theorem callSize_pos (c : DenseConfig) (batchSize : Int) : 0 < c.callSize batchSize := by
  unfold callSize
  split
  · exact c.batchSizePos
  · omega

theorem callSize_cast (c : DenseConfig) (batchSize : Int) :
    (((c.callSize batchSize).toNat : Nat) : Int) = c.callSize batchSize :=
  Int.toNat_of_nonneg (c.callSize_pos batchSize).le

theorem embedSize_pos (c : DenseConfig) (batchSize : Int) : 0 < c.embedSize batchSize := by
  unfold embedSize
  split
  · exact Int.one_pos
  · exact c.callSize_pos batchSize

theorem embedSize_cast (c : DenseConfig) (batchSize : Int) :
    (((c.embedSize batchSize).toNat : Nat) : Int) = c.embedSize batchSize :=
  Int.toNat_of_nonneg (c.embedSize_pos batchSize).le

/-- The order `embed` goes through the texts in. -/
def order (c : DenseConfig) (texts : List Bytes) : List Nat :=
  ((c.onnx (c.unitSession 0)).embedIndices texts).toOption.getD []

theorem embedIndices_eq (session : OnnxSession ℚ) (texts : List Bytes) :
    (c.onnx session).embedIndices texts = .ok (c.order texts) ∧
    (c.order texts).Perm (List.range texts.length) := by
  have hsort : ∃ l, (c.onnx session).embedIndices texts = .ok l ∧
      l.Perm (List.range texts.length) := by
    unfold OnnxEmbedder.embedIndices
    split
    · obtain ⟨l, hl, hperm, -⟩ := (c.onnx session).sorter.sort_spec _ (List.range texts.length)
        (StrictWeak.of_key_gt (fun i => (texts.map fun text =>
          (c.tokenizer.encode text).length).getD i 0) _)
      exact ⟨l, hl, hperm⟩
    · exact ⟨_, rfl, .refl _⟩
  obtain ⟨l, hl, hperm⟩ := hsort
  have horder : c.order texts = l := by
    have hunit : (c.onnx (c.unitSession 0)).embedIndices texts =
        (c.onnx session).embedIndices texts := rfl
    rw [order, hunit, hl]
    rfl
  exact horder ▸ ⟨hl, hperm⟩

/-- The batches of `embed`. -/
def embedBatchAt (c : DenseConfig) (texts : List Bytes) (batchSize : Int) (k : Nat) : List Bytes :=
  batchAt texts (c.order texts) (c.embedSize batchSize).toNat k

def streamBatchAt (c : DenseConfig) (texts : List Bytes) (batchSize : Int) (k : Nat) : List Bytes :=
  slice (c.callSize batchSize).toNat texts k

def embedCount (c : DenseConfig) (texts : List Bytes) (batchSize : Int) : Nat :=
  sliceCount (c.embedSize batchSize).toNat texts.length

def streamCount (c : DenseConfig) (texts : List Bytes) (batchSize : Int) : Nat :=
  sliceCount (c.callSize batchSize).toNat texts.length

/-- Neither path leaves its buffers, and the stream gets the rows of the matrix. -/
def OnnxAgrees (c : DenseConfig) (session : OnnxSession ℚ) (texts : List Bytes)
    (batchSize : Int) : Prop :=
  ∀ data, data.length = texts.length * c.dim → ∃ out stream,
    (c.onnx session).onnxEmbed texts (c.callSize batchSize) data = .ok out ∧
    (c.onnx session).onnxEmbedStream texts (c.callSize batchSize) = .ok stream ∧
    ∀ status filled, out = .returned (status, filled) →
      status = .ok ∧ StreamsRows c.dim texts.length filled stream.delivered stream.threw

/-- All offsets and counts of both paths are `int`s, a text has the token that is read,
and the rows of the output are long enough. -/
structure InBounds (c : DenseConfig) (texts : List Bytes) (batchSize : Int) : Prop where
  embedTotal : (texts.length : Int) + c.embedSize batchSize ≤ intMax
  streamTotal : (texts.length : Int) + c.callSize batchSize ≤ intMax
  offsets : FitsInt (((texts.length - 1 : Nat) : Int) * c.dim)
  width : 0 < texts.length → c.dim ≤ c.outDim
  embedBatches : ∀ k < c.embedCount texts batchSize, c.BatchOk (c.embedBatchAt texts batchSize k)
  streamBatches : ∀ k < c.streamCount texts batchSize,
    c.BatchOk (c.streamBatchAt texts batchSize k)

/-- What of it the calls of `embed` need. -/
structure EmbedInBounds (c : DenseConfig) (texts : List Bytes) (batchSize : Int) : Prop where
  total : (texts.length : Int) + c.embedSize batchSize ≤ intMax
  offsets : FitsInt (((texts.length - 1 : Nat) : Int) * c.dim)
  width : 0 < texts.length → c.dim ≤ c.outDim
  batches : ∀ k < c.embedCount texts batchSize, c.BatchOk (c.embedBatchAt texts batchSize k)

theorem InBounds.embed {batchSize : Int} (h : c.InBounds texts batchSize) :
    c.EmbedInBounds texts batchSize :=
  ⟨h.embedTotal, h.offsets, h.width, h.embedBatches⟩

/-- The rows of a batch start where `embed` looks for them, as far as a model can show it:
the strides are the same, or only the first row is read, or all rows are zero. -/
def StridesMeet (c : DenseConfig) (texts : List Bytes) (batchSize : Int) : Prop :=
  c.outDim = c.dim ∨ c.dim = 0 ∨ ∀ k < c.embedCount texts batchSize,
    (c.embedBatchAt texts batchSize k).length ≤ 1 ∨
      ∀ text ∈ c.embedBatchAt texts batchSize k, ¬c.Carries text

-- ---------------------------------------------------------------------------
-- The two runs
-- ---------------------------------------------------------------------------

/-- A text has one place in the batches of `embed`. -/
theorem mem_embedBatch (c : DenseConfig) (batchSize : Int) {j : Nat} (hj : j < texts.length) :
    ∃ k i : Nat,
    k < c.embedCount texts batchSize ∧
    (slice (c.embedSize batchSize).toNat (c.order texts) k)[i]? = some j ∧
    (c.embedBatchAt texts batchSize k)[i]? = some texts[j] := by
  have hperm := (embedIndices_eq (c := c) (c.unitSession 0) texts).2
  have hpos := c.embedSize_pos batchSize
  obtain ⟨p, hp⟩ := List.getElem?_of_mem (hperm.mem_iff.mpr (List.mem_range.mpr hj))
  have hplt : p < texts.length := by
    have := (List.getElem?_eq_some_iff.mp hp).1
    rwa [hperm.length_eq, List.length_range] at this
  obtain ⟨hk, hi, hpk⟩ := slice_covers (b := (c.embedSize batchSize).toNat) (by omega) hplt
  have hslice : (slice (c.embedSize batchSize).toNat (c.order texts)
      (p / (c.embedSize batchSize).toNat))[p % (c.embedSize batchSize).toNat]? = some j := by
    rw [getElem?_slice hi, hpk, hp]
  refine ⟨_, _, hk, hslice, ?_⟩
  rw [embedBatchAt, batchAt, List.getElem?_map, hslice, Option.map_some,
    List.getD_eq_getElem?_getD, List.getElem?_eq_getElem hj, Option.getD_some]

/-- `embed` throws or returns the copied rows. -/
theorem onnxEmbed_total (h : c.Independent session hidden) {batchSize : Int}
    (hin : c.EmbedInBounds texts batchSize) {data : List ℚ}
    (hdata : data.length = texts.length * c.dim) :
    (c.onnx session).onnxEmbed texts (c.callSize batchSize) data = .ok .threw ∨
    ∃ filled, (c.onnx session).onnxEmbed texts (c.callSize batchSize) data =
      .ok (.returned (.ok, filled)) ∧
      c.MatrixHolds hidden texts (c.order texts) (c.embedSize batchSize).toNat
        (c.embedCount texts batchSize) filled := by
  obtain ⟨hindices, hperm⟩ := embedIndices_eq (c := c) session texts
  have hpos := c.embedSize_pos batchSize
  have hsize := c.embedSize_cast batchSize
  have hcount := (batchCount_slices (b := (c.embedSize batchSize).toNat) (by omega)).mpr
    ⟨hsize ▸ hin.total, rfl⟩
  obtain ⟨out, hout, hholds⟩ := embedLoop_total hperm (by omega) (hsize ▸ hin.total) h
    hin.batches hin.width hin.offsets hdata c.pooledBuf
  rw [hsize] at hcount hout
  have hrun : (c.onnx session).onnxEmbed texts (c.callSize batchSize) data =
      match out with
      | .threw => .ok .threw
      | .returned (resultData, _) => .ok (.returned (.ok, resultData)) := by
    have hstrategy : (c.onnx session).batchStrategy = c.batchStrategy := rfl
    have hbuf : (c.onnx session).pooledBuf = c.pooledBuf := rfl
    have heff : (if c.batchStrategy = .sequential then 1 else c.callSize batchSize) =
        c.embedSize batchSize := rfl
    simp only [OnnxEmbedder.onnxEmbed, hindices, ok_bind, hstrategy, heff, hcount, hbuf,
      Int.toNat_natCast, hout]
    cases out <;> rfl
  cases out with
  | threw => exact .inl hrun
  | returned r => exact .inr ⟨r.1, hrun, hholds r rfl⟩

theorem onnxEmbedStream_total (h : c.Independent session hidden) {batchSize : Int}
    (hin : c.InBounds texts batchSize) : ∃ stream,
      (c.onnx session).onnxEmbedStream texts (c.callSize batchSize) = .ok stream ∧
      ∃ m ≤ texts.length, stream.delivered = (texts.take m).map (c.streamed hidden) ∧
        (stream.threw = false → m = texts.length) := by
  have hpos := c.callSize_pos batchSize
  have hsize := c.callSize_cast batchSize
  have hcount := (batchCount_slices (b := (c.callSize batchSize).toNat) (by omega)).mpr
    ⟨hsize ▸ hin.streamTotal, rfl⟩
  obtain ⟨stream, hstream, m, hdelivered, hm⟩ := streamLoop_total (by omega)
    (hsize ▸ hin.streamTotal) h hin.streamBatches hin.width c.pooledBuf
  rw [hsize] at hcount hstream
  refine ⟨stream, ?_, min m texts.length, by omega, ?_, fun hthrew => ?_⟩
  · have hbuf : (c.onnx session).pooledBuf = c.pooledBuf := rfl
    simp only [OnnxEmbedder.onnxEmbedStream, hcount, ok_bind, hbuf, Int.toNat_natCast, hstream]
  · rw [hdelivered, ← List.take_eq_take_min]
  · have hall := congrArg List.length (take_slices (b := (c.callSize batchSize).toNat)
      (by omega) texts)
    rw [List.length_take] at hall
    rw [hm hthrew]
    omega

/-- Where the strides meet, what `embed` copies is what the stream delivers. -/
theorem copied_eq_streamed (h : c.Independent session hidden) {batch : List Bytes}
    (hdim : c.dim ≤ c.outDim) (hmeet : c.outDim = c.dim ∨ c.dim = 0 ∨ batch.length ≤ 1 ∨
      ∀ text ∈ batch, ¬c.Carries text) {i : Nat} (hi : batch[i]? = some text) :
    c.copied hidden batch i = c.streamed hidden text := by
  have hrow : row c.outDim i (c.pooledOf hidden batch) = c.vecOf hidden text :=
    row_flatMap (fun t _ => length_vecOf h t) hi
  have hlt := (List.getElem?_eq_some_iff.mp hi).1
  rcases hmeet with heq | hzero | hone | hnone
  · rw [copied, streamed, ← heq, hrow, List.take_of_length_le (length_vecOf h text).le]
  · rw [copied, streamed, row, hzero, List.take_zero, List.take_zero]
  · obtain rfl : i = 0 := by omega
    rw [streamed, ← hrow, copied, row, row, Nat.zero_mul, Nat.zero_mul, List.take_take,
      Nat.min_eq_left hdim]
  · have hpooled : c.pooledOf hidden batch = List.replicate (batch.length * c.outDim) 0 := by
      refine List.eq_replicate_iff.mpr ⟨length_pooledOf h batch, fun x hx => ?_⟩
      obtain ⟨t, ht, hx⟩ := List.mem_flatMap.mp hx
      rw [vecOf_of_not_carries (hnone t ht)] at hx
      exact List.eq_of_mem_replicate hx
    have hbound := row_bound hlt c.dim
    have hwide := Nat.mul_le_mul_left batch.length hdim
    rw [streamed, vecOf_of_not_carries (hnone text (List.mem_of_getElem? hi)), copied, hpooled, row,
      List.drop_replicate, List.take_replicate, List.take_replicate]
    congr 1
    omega

theorem onnxAgrees_of_meet (h : c.Independent session hidden) {batchSize : Int}
    (hin : c.InBounds texts batchSize) (hmeet : c.StridesMeet texts batchSize) :
    c.OnnxAgrees session texts batchSize := by
  intro data hdata
  obtain ⟨stream, hstream, m, hm, hdelivered, hmn⟩ := onnxEmbedStream_total h hin
  rcases onnxEmbed_total h hin.embed hdata with hthrew | ⟨filled, hembed, hholds⟩
  · exact ⟨_, stream, hthrew, hstream, nofun⟩
  · refine ⟨_, stream, hembed, hstream, ?_⟩
    rintro _ _ ⟨⟩
    refine ⟨rfl, m, hm, ?_, hmn⟩
    rw [hdelivered]
    refine List.ext_getElem (by simpa using hm) fun j hj _ => ?_
    have hj : j < texts.length := by
      rw [List.length_map, List.length_take] at hj
      omega
    obtain ⟨k, i, hk, hslice, hbatch⟩ := mem_embedBatch c batchSize hj
    have hstrides : c.outDim = c.dim ∨ c.dim = 0 ∨
        (c.embedBatchAt texts batchSize k).length ≤ 1 ∨
          ∀ text ∈ c.embedBatchAt texts batchSize k, ¬c.Carries text := by
      rcases hmeet with heq | hzero | hbatches
      · exact .inl heq
      · exact .inr (.inl hzero)
      · exact .inr (.inr (hbatches k hk))
    rw [List.getElem_map, List.getElem_take, List.getElem_map, List.getElem_range,
      hholds.2 k hk i j hslice]
    exact (copied_eq_streamed h (hin.width (by omega)) hstrides hbatch).symm

-- ---------------------------------------------------------------------------
-- What agreement shows
-- ---------------------------------------------------------------------------

section

variable (hsession : ∀ batch i, ∃ outputs, session.run batch i = .returned outputs)

include hsession

theorem pooledBatch_returned (h : (c.onnx session).pooledBatch buf texts = .ok out) :
    ∃ r, out = .returned r := by
  obtain ⟨batch, -, h⟩ := bind_ok.mp h
  have hrun : (c.onnx session).session = session := rfl
  obtain ⟨outputs, houtputs⟩ := hsession batch (c.onnx session).outputIndex
  simp only [hrun, houtputs, bind_ok, pure_ok] at h
  obtain ⟨-, -, r, -, rfl⟩ := h
  exact ⟨r, rfl⟩

theorem embedBatch_returned {indices : List Nat} {size : Int}
    (h : (c.onnx session).embedBatch texts indices size (.returned s) k = .ok t) :
    ∃ r, t = .returned r := by
  obtain ⟨range, -, h⟩ := bind_ok.mp h
  obtain ⟨batch, -, h⟩ := bind_ok.mp h
  obtain ⟨out, hout, h⟩ := bind_ok.mp h
  obtain ⟨r, rfl⟩ := pooledBatch_returned hsession hout
  obtain ⟨filled, -, h⟩ := bind_ok.mp h
  exact ⟨_, (Except.ok.inj h).symm⟩

theorem streamBatch_returned {size : Int} {s t : OnnxEmbedder.Stream} (hs : s.threw = false)
    (h : (c.onnx session).streamBatch texts size s k = .ok t) : t.threw = false := by
  rw [OnnxEmbedder.streamBatch, hs, if_neg Bool.false_ne_true] at h
  obtain ⟨range, -, h⟩ := bind_ok.mp h
  obtain ⟨batch, -, h⟩ := bind_ok.mp h
  obtain ⟨out, hout, h⟩ := bind_ok.mp h
  obtain ⟨r, rfl⟩ := pooledBatch_returned hsession hout
  obtain ⟨delivered, -, h⟩ := bind_ok.mp h
  exact congrArg OnnxEmbedder.Stream.threw (Except.ok.inj h).symm

theorem embedLoop_returned {indices : List Nat} {size : Int} {r : List ℚ × List ℚ}
    (h : forUpTo n ((c.onnx session).embedBatch texts indices size) (.returned r) = .ok out) :
    ∃ r, out = .returned r := by
  refine forUpTo_invariant (fun _ s => ∃ r, s = .returned r) ⟨_, rfl⟩ ?_ h
  rintro i _ t - ⟨r, rfl⟩ hstep
  exact embedBatch_returned hsession hstep

theorem onnxEmbed_returned {size : Int} {data : List ℚ}
    (h : (c.onnx session).onnxEmbed texts size data = .ok out) : ∃ r, out = .returned r := by
  obtain ⟨indices, -, h⟩ := bind_ok.mp h
  obtain ⟨count, -, h⟩ := bind_ok.mp h
  obtain ⟨s, hloop, h⟩ := bind_ok.mp h
  obtain ⟨r, rfl⟩ := embedLoop_returned hsession hloop
  exact ⟨_, (Except.ok.inj h).symm⟩

theorem onnxEmbedStream_returned {size : Int} {out : OnnxEmbedder.Stream}
    (h : (c.onnx session).onnxEmbedStream texts size = .ok out) : out.threw = false := by
  obtain ⟨count, -, h⟩ := bind_ok.mp h
  refine forUpTo_invariant (fun _ (s : OnnxEmbedder.Stream) => s.threw = false) rfl ?_ h
  intro i s t _ hs hstep
  exact streamBatch_returned hsession hs hstep

/-- A call of `embed` that ran to its end had every access inside its buffer. -/
theorem embedInBounds_of_ran (h : c.Independent session hidden) {batchSize : Int}
    (hembed : (c.onnx session).onnxEmbed texts (c.callSize batchSize) data = .ok out) :
    c.EmbedInBounds texts batchSize := by
  obtain ⟨hindices, hperm⟩ := embedIndices_eq (c := c) session texts
  have hpos := c.embedSize_pos batchSize
  have hsize := c.embedSize_cast batchSize
  have hstrategy : (if (c.onnx session).batchStrategy = .sequential then 1
      else c.callSize batchSize) = (((c.embedSize batchSize).toNat : Nat) : Int) := hsize.symm
  rw [OnnxEmbedder.onnxEmbed, hindices, ok_bind, hstrategy] at hembed
  obtain ⟨count, hcount, hembed⟩ := bind_ok.mp hembed
  obtain ⟨htotal, rfl⟩ := (batchCount_slices (by omega)).mp hcount
  obtain ⟨s, hloop, -⟩ := bind_ok.mp hembed
  obtain ⟨r, rfl⟩ := embedLoop_returned hsession hloop
  have hbatches := fun k (hk : k < c.embedCount texts batchSize) =>
    embedLoop_ran hperm (by omega) htotal h hloop hk
  refine ⟨hsize ▸ htotal, ?_, fun hpos => ?_, fun k hk => (hbatches k hk).1⟩
  · rcases Nat.eq_zero_or_pos texts.length with hzero | hpos
    · rw [hzero, Nat.zero_sub, Nat.cast_zero, zero_mul]
      decide
    · obtain ⟨k, i, hk, hslice, -⟩ :=
        mem_embedBatch c batchSize (Nat.sub_one_lt_of_lt hpos)
      exact (hbatches k hk).2.2 _ (List.mem_of_getElem? hslice)
  · obtain ⟨k, i, hk, -, -⟩ := mem_embedBatch c batchSize hpos
    exact (hbatches k hk).2.1

/-- A call of `embed` that ran to its end returned the copied rows. -/
theorem onnxEmbed_copies (h : c.Independent session hidden) {batchSize : Int} {data : List ℚ}
    (hdata : data.length = texts.length * c.dim)
    (hembed : (c.onnx session).onnxEmbed texts (c.callSize batchSize) data = .ok out) :
    ∃ filled, out = .returned (.ok, filled) ∧
      c.MatrixHolds hidden texts (c.order texts) (c.embedSize batchSize).toNat
        (c.embedCount texts batchSize) filled := by
  rcases onnxEmbed_total h (embedInBounds_of_ran hsession h hembed) hdata with
    hthrow | ⟨filled, hfilled, hholds⟩
  · obtain ⟨r, rfl⟩ := onnxEmbed_returned hsession hembed
    cases hembed.symm.trans hthrow
  · exact ⟨filled, Except.ok.inj (hembed.symm.trans hfilled), hholds⟩

/-- Paths that ran to their end had every access inside its buffer. -/
theorem inBounds_of_agrees (h : c.Independent session hidden) {batchSize : Int}
    (hagree : c.OnnxAgrees session texts batchSize) : c.InBounds texts batchSize := by
  obtain ⟨out, stream, hembed, hstream, -⟩ :=
    hagree (List.replicate (texts.length * c.dim) 0) List.length_replicate
  have hin := embedInBounds_of_ran hsession h hembed
  have hcallPos := c.callSize_pos batchSize
  have hcallSize := c.callSize_cast batchSize
  have hthrew := onnxEmbedStream_returned hsession hstream
  rw [← hcallSize, OnnxEmbedder.onnxEmbedStream] at hstream
  obtain ⟨count, hcount, hstream⟩ := bind_ok.mp hstream
  obtain ⟨hstreamTotal, rfl⟩ := (batchCount_slices (by omega)).mp hcount
  exact ⟨hin.total, hcallSize ▸ hstreamTotal, hin.offsets, hin.width, hin.batches,
    fun k hk => streamLoop_ran (by omega) hstreamTotal h hstream hthrew hk⟩

/-- What `embed` copies is what the stream delivers. -/
theorem copied_of_agrees (h : c.Independent session hidden) {batchSize : Int}
    (hagree : c.OnnxAgrees session texts batchSize) {k : Nat}
    (hk : k < c.embedCount texts batchSize) {i : Nat}
    (hi : (c.embedBatchAt texts batchSize k)[i]? = some text) :
    c.copied hidden (c.embedBatchAt texts batchSize k) i = c.streamed hidden text := by
  have hin := inBounds_of_agrees hsession h hagree
  have hdata : (List.replicate (texts.length * c.dim) (0 : ℚ)).length = texts.length * c.dim :=
    List.length_replicate
  obtain ⟨out, stream, hembed, hstream, hrows⟩ := hagree _ hdata
  obtain ⟨m, -, hdelivered, hm⟩ : ∃ m ≤ texts.length, stream.delivered =
      (texts.take m).map (c.streamed hidden) ∧ (stream.threw = false → m = texts.length) := by
    obtain ⟨stream', hstream', hdelivered⟩ := onnxEmbedStream_total h hin
    cases hstream.symm.trans hstream'
    exact hdelivered
  have hthrew := onnxEmbedStream_returned hsession hstream
  obtain ⟨filled, rfl, hholds⟩ := onnxEmbed_copies hsession h hdata hembed
  obtain ⟨-, m', -, hmatrix, hm'⟩ := hrows _ _ rfl
  rw [hm hthrew, List.take_length] at hdelivered
  rw [hm' hthrew, hdelivered] at hmatrix
  rw [embedBatchAt, batchAt, List.getElem?_map, Option.map_eq_some_iff] at hi
  obtain ⟨j, hslice, rfl⟩ := hi
  have hj : j < texts.length := by
    have hperm := (embedIndices_eq (c := c) session texts).2
    have hmem := mem_of_mem_slice (List.mem_of_getElem? hslice)
    exact List.mem_range.mp (hperm.mem_iff.mp hmem)
  have hplace := congrArg (·[j]?) hmatrix
  simp only [List.getElem?_map, List.getElem?_range hj, List.getElem?_eq_getElem hj,
    Option.map_some, Option.some_inj] at hplace
  have hcopied : row c.dim j filled = c.copied hidden (c.embedBatchAt texts batchSize k) i :=
    hholds.2 k hk i j hslice
  rw [← hcopied, ← hplace, List.getD_eq_getElem?_getD, List.getElem?_eq_getElem hj,
    Option.getD_some]

end

theorem getElem?_pooledOf (h : c.Independent session hidden) {batch : List Bytes} {i s : Nat}
    (hi : batch[i]? = some text) (hs : s < c.outDim) :
    (c.pooledOf hidden batch)[i * c.outDim + s]? = (c.vecOf hidden text)[s]? := by
  have hrow : row c.outDim i (c.pooledOf hidden batch) = c.vecOf hidden text :=
    row_flatMap (fun t _ => length_vecOf h t) hi
  rw [← hrow, getElem?_row, if_pos hs]

/-- The unit models show every batch whose rows are read elsewhere. -/
theorem strides_of_copied {batch : List Bytes} (hdim : c.dim ≤ c.outDim)
    (h : ∀ k < c.outDim, ∀ (i : Nat) text, batch[i]? = some text →
      c.copied (fun _ _ => unitRow c.outDim k) batch i =
        c.streamed (fun _ _ => unitRow c.outDim k) text) :
    c.outDim = c.dim ∨ c.dim = 0 ∨ batch.length ≤ 1 ∨ ∀ text ∈ batch, ¬c.Carries text := by
  by_contra hcon
  simp only [not_or, not_forall, not_not] at hcon
  obtain ⟨hstride, hzero, hlen, text, htext, hcarries⟩ := hcon
  have hdimPos : 0 < c.dim := Nat.pos_of_ne_zero hzero
  -- the first text of the batch that can show where it is
  have hexists : ∃ (i : Nat) (text : Bytes), batch[i]? = some text ∧ c.Carries text := by
    obtain ⟨i, hi⟩ := List.getElem?_of_mem htext
    exact ⟨i, text, hi, hcarries⟩
  classical
  obtain ⟨shown, hshown, hcarries⟩ := Nat.find_spec hexists
  have hfirst := fun i => Nat.find_min hexists (m := i)
  generalize Nat.find hexists = first at hshown hfirst
  have hplaces : ∀ k < c.outDim, ∀ (i : Nat) text, batch[i]? = some text →
      (c.pooledOf (fun _ _ => unitRow c.outDim k) batch)[i * c.dim]? =
        (c.vecOf (fun _ _ => unitRow c.outDim k) text)[0]? := by
    intro k hk i text hi
    have hplace := congrArg (·[0]?) (h k hk i text hi)
    simpa only [copied, streamed, getElem?_row, if_pos hdimPos, Nat.add_zero, List.getElem?_take]
      using hplace
  rcases Nat.eq_zero_or_pos first with rfl | hpos
  · -- row one of the matrix starts in row zero of the batch, at place `dim`
    have hk : c.dim < c.outDim := by omega
    obtain ⟨next, hnext⟩ : ∃ next, batch[1]? = some next := ⟨_, List.getElem?_eq_getElem (by omega)⟩
    have hplace := hplaces c.dim hk 1 next hnext
    have hread := getElem?_pooledOf (unit_independent c c.dim) hshown hk
    rw [Nat.zero_mul, Nat.zero_add] at hread
    rw [Nat.one_mul, hread, vecOf_unit hk, if_pos hcarries, getElem?_unitRow hk, if_pos rfl,
      vecOf_unit hk] at hplace
    split at hplace
    · rw [getElem?_unitRow (by omega), if_neg (by omega)] at hplace
      simp at hplace
    · rw [List.getElem?_replicate, if_pos (by omega)] at hplace
      simp at hplace
  · -- a later row starts before it in the matrix, where the batch is zero
    have hk : 0 < c.outDim := by omega
    have hplace := hplaces 0 hk first shown hshown
    have hmod := Nat.mod_lt (first * c.dim) hk
    have hlt : first * c.dim / c.outDim < first :=
      Nat.div_lt_of_lt_mul ((Nat.mul_comm c.outDim first).symm ▸
        Nat.mul_lt_mul_of_pos_left (by omega) hpos)
    have hbatch := (List.getElem?_eq_some_iff.mp hshown).1
    obtain ⟨earlier, hearlier⟩ : ∃ earlier, batch[first * c.dim / c.outDim]? = some earlier :=
      ⟨_, List.getElem?_eq_getElem (hlt.trans hbatch)⟩
    have hread := getElem?_pooledOf (unit_independent c 0) hearlier hmod
    have hnot : ¬c.Carries earlier := fun hc => hfirst _ hlt ⟨_, hearlier, hc⟩
    rw [Nat.div_add_mod', vecOf_of_not_carries hnot, List.getElem?_replicate, if_pos hmod] at hread
    rw [hread, vecOf_unit hk, if_pos hcarries, getElem?_unitRow hk, if_pos rfl] at hplace
    simp at hplace

-- ---------------------------------------------------------------------------
-- Both backends
-- ---------------------------------------------------------------------------

def llama (c : DenseConfig) (session : Bytes → Outcome (List ℚ)) : LlamaEmbedder :=
  ⟨session, c.dim, c.sqrt.sqrt⟩

/-- For every model whose output for a text does not depend on the other texts, neither
path leaves its buffers and the stream gets the rows of the matrix. -/
def Agrees (c : DenseConfig) (texts : List Bytes) (batchSize : Int) : Prop :=
  (c.backendType = .onnx → ∀ session hidden, c.Independent session hidden →
    c.OnnxAgrees session texts batchSize) ∧
  (c.backendType = .llamacpp → ∀ session, (c.llama session).Sized → (c.llama session).Agrees texts)

theorem onnx_agrees_iff (c : DenseConfig) (texts : List Bytes) (batchSize : Int) :
    (∀ session hidden, c.Independent session hidden → c.OnnxAgrees session texts batchSize) ↔
      c.InBounds texts batchSize ∧ c.StridesMeet texts batchSize := by
  constructor
  · intro h
    have hsession : ∀ k batch i, ∃ outputs, (c.unitSession k).run batch i = .returned outputs :=
      fun k batch i => ⟨_, rfl⟩
    have hin := inBounds_of_agrees (hsession 0) (unit_independent c 0)
      (h _ _ (unit_independent c 0))
    refine ⟨hin, ?_⟩
    by_contra hcon
    simp only [StridesMeet, not_or, not_forall] at hcon
    obtain ⟨hstride, hzero, k, hk, hlen, hcarries⟩ := hcon
    have hpos : 0 < texts.length :=
      (Nat.zero_le _).trans_lt (slice_start_lt (by have := c.embedSize_pos batchSize; omega) hk)
    rcases strides_of_copied (hin.width hpos) fun p _ i text hi =>
        copied_of_agrees (hsession p) (unit_independent c p) (h _ _ (unit_independent c p)) hk hi
      with h | h | h | h
    · exact hstride h
    · exact hzero h
    · exact hlen h
    · obtain ⟨text, htext, hc⟩ := hcarries
      exact hc (h text htext)
  · rintro ⟨hin, hmeet⟩ session hidden h
    exact onnxAgrees_of_meet h hin hmeet

theorem llama_agrees_iff (c : DenseConfig) (texts : List Bytes) :
    (∀ session, (c.llama session).Sized → (c.llama session).Agrees texts) ↔
      LlamaEmbedder.Fits c.dim texts.length := by
  constructor
  · intro h
    let zeros : Bytes → Outcome (List ℚ) := fun _ => .returned (List.replicate c.dim 0)
    have hagrees := h zeros fun text => .inr ⟨_, rfl, List.length_replicate⟩
    exact LlamaEmbedder.fits_of_agrees (fun text => ⟨_, rfl⟩) hagrees
  · intro h session hsized
    exact LlamaEmbedder.agrees_of_fits hsized h

/-- The vectors of the stream are the rows of the matrix exactly when all accesses of
both paths are inside their buffers and, on ONNX, the strides meet. -/
theorem stream_agrees_iff (c : DenseConfig) (texts : List Bytes) (batchSize : Int) :
    c.Agrees texts batchSize ↔
      (c.backendType = .onnx → c.InBounds texts batchSize ∧ c.StridesMeet texts batchSize) ∧
      (c.backendType = .llamacpp → LlamaEmbedder.Fits c.dim texts.length) := by
  rw [Agrees, onnx_agrees_iff, llama_agrees_iff]

/-- A model of dimension one whose output has rows of two places. -/
def narrowConfig : DenseConfig where
  backendType := .onnx
  tokenizer := .new
  outputKey := []
  pooling := .cls
  batchStrategy := .fixed
  dim := 1
  batchSize := 256
  batchSizePos := Int.sign_eq_one_iff_pos.mp rfl
  pooledBuf := []
  sqrt := unitSqrt
  sorter := insertionImpl
  rank := .two
  outDim := 2

/-- The matrix gets row one of a batch from the middle of row zero. -/
theorem narrow_stream_disagrees : ¬narrowConfig.Agrees [[], []] 2 := by
  rintro ⟨h, -⟩
  obtain ⟨-, hmeet⟩ := (onnx_agrees_iff narrowConfig [[], []] 2).mp (h rfl)
  rcases hmeet with h | h | h
  · cases h
  · cases h
  · rcases h 0 (by decide +kernel) with hlen | hcarries
    · exact absurd hlen (by decide +kernel)
    · exact hcarries [] (by decide +kernel) nofun

end DenseConfig

end LibEmbedding
