import LibEmbedding.DenseBatch

/-!
# The two loops of the ONNX path

What the result matrix and the stream hold after all batches, and exactly when both
loops stay inside their buffers. The matrix gets row `i` of a batch from offset
`i * dim` of `pooled_buf_`, the stream from offset `i * out_dim`.
-/

namespace LibEmbedding

open Foundation

namespace DenseConfig

variable {c : DenseConfig} {session : OnnxSession ℚ} {hidden : Bytes → Nat → List ℚ}
  {texts : List Bytes}

/-- What `pooled_buf_` holds after a batch. -/
def pooledOf (c : DenseConfig) (hidden : Bytes → Nat → List ℚ) (batch : List Bytes) : List ℚ :=
  batch.flatMap (c.vecOf hidden)

/-- What the matrix gets for row `i` of a batch. -/
def copied (c : DenseConfig) (hidden : Bytes → Nat → List ℚ) (batch : List Bytes) (i : Nat) :
    List ℚ :=
  row c.dim i (c.pooledOf hidden batch)

/-- The texts of batch `k` of an order. -/
def batchAt (texts : List Bytes) (indices : List Nat) (b k : Nat) : List Bytes :=
  (slice b indices k).map fun j => texts.getD j []

theorem length_vecOf (h : c.Independent session hidden) (text : Bytes) :
    (c.vecOf hidden text).length = c.outDim := by
  rw [vecOf, length_normalizeRow, pooledRow]
  split
  · refine length_meanOf fun r hr => ?_
    obtain ⟨s, -, rfl⟩ := List.mem_map.mp hr
    exact h.width text s
  · exact h.width text 0

theorem length_pooledOf (h : c.Independent session hidden) (batch : List Bytes) :
    (c.pooledOf hidden batch).length = batch.length * c.outDim :=
  length_flatMap fun text _ => length_vecOf h text

theorem pooledBatch_cases (h : c.Independent session hidden) {batch : List Bytes}
    (hok : c.BatchOk batch) (buf : List ℚ) :
    (c.onnx session).pooledBatch buf batch = .ok .threw ∨
    (c.onnx session).pooledBatch buf batch =
      .ok (.returned (c.pooledOf hidden batch, c.outDim)) := by
  rcases pooledBatch_total h hok buf with hthrew | ⟨pooled, hpooled, hlen, hrows⟩
  · exact .inl hthrew
  · have heq : pooled = c.pooledOf hidden batch :=
      eq_flatMap (fun text _ => length_vecOf h text) hlen hrows
    exact .inr (heq ▸ hpooled)

-- ---------------------------------------------------------------------------
-- The copy loop
-- ---------------------------------------------------------------------------

theorem fitsInt_of_le {a b d : Nat} (hle : a ≤ b) (h : FitsInt ((b : Int) * d)) :
    FitsInt ((a : Int) * d) := by
  have hmin : intMin ≤ 0 := by decide
  have hmul : (a : Int) * d ≤ (b : Int) * d := by exact_mod_cast Nat.mul_le_mul_right d hle
  exact ⟨hmin.trans (by positivity), hmul.trans h.2⟩

variable {indices idx : List Nat} {start n : Nat} {pooled data : List ℚ}

/-- The rows of a batch go to the rows of its texts, which are distinct; the others
stay. -/
theorem copyRows_total (hnodup : idx.Nodup) (hidx : ∀ i j, idx[i]? = some j →
      indices[start + i]? = some j) (hlt : ∀ j ∈ idx, j < n) (hlen : idx.length ≤ n)
    (hpooled : pooled.length = idx.length * c.outDim) (hdim : c.dim ≤ c.outDim)
    (hoffset : FitsInt (((n - 1 : Nat) : Int) * c.dim)) (hdata : data.length = n * c.dim) :
    ∃ out, forUpTo idx.length (OnnxEmbedder.copyRow c.dim indices start pooled) data = .ok out ∧
      out.length = n * c.dim ∧
      (∀ i j, idx[i]? = some j → row c.dim j out = row c.dim i pooled) ∧
      ∀ j ∉ idx, row c.dim j out = row c.dim j data := by
  have hstep : ∀ k (out : List ℚ), k < idx.length →
      (out.length = n * c.dim ∧
        (∀ i j, i < k → idx[i]? = some j → row c.dim j out = row c.dim i pooled) ∧
        ∀ j, j ∉ idx.take k → row c.dim j out = row c.dim j data) →
      ∃ next, OnnxEmbedder.copyRow c.dim indices start pooled out k = .ok next ∧
        next.length = n * c.dim ∧
        (∀ i j, i < k + 1 → idx[i]? = some j → row c.dim j next = row c.dim i pooled) ∧
        ∀ j, j ∉ idx.take (k + 1) → row c.dim j next = row c.dim j data := by
    rintro k out hk ⟨hout, hrows, hkeep⟩
    obtain ⟨j, hj⟩ : ∃ j, idx[k]? = some j := ⟨_, List.getElem?_eq_getElem hk⟩
    have hjn := hlt j (List.mem_of_getElem? hj)
    have hread : readAt pooled (k * c.dim) c.dim = .ok (row c.dim k pooled) := by
      have hrow := row_bound hk c.dim
      have hwide := Nat.mul_le_mul_left idx.length hdim
      exact readAt_ok.mpr ⟨by omega, rfl⟩
    have hwidth : (row c.dim k pooled).length = c.dim := length_of_readAt hread
    obtain ⟨next, hnext⟩ := writeAt_row_ok hout hjn hwidth
    refine ⟨next, ?_, (length_of_writeAt hnext).trans hout, fun i j' hi hij => ?_, fun j' hj' => ?_⟩
    · have horig : FitsInt ((j : Int) * c.dim) := fitsInt_of_le (by omega) hoffset
      have hrow : FitsInt ((k : Int) * c.dim) := fitsInt_of_le (by omega) hoffset
      simp only [OnnxEmbedder.copyRow, get_ok.mpr (hidx k j hj), intOffset, ensure_pos horig,
        ensure_pos hrow, ok_bind, hread, hnext]
    · rcases Nat.lt_succ_iff_lt_or_eq.mp hi with hlt' | rfl
      · have hne : j ≠ j' := by
          rintro rfl
          have hik := (List.getElem?_inj (hlt'.trans hk) hnodup).mp (hij.trans hj.symm)
          omega
        rw [row_of_writeAt_ne hnext hwidth hne, hrows i j' hlt' hij]
      · cases hj.symm.trans hij
        exact row_of_writeAt hnext hwidth
    · rw [List.take_add_one, hj] at hj'
      simp only [Option.toList_some, List.mem_append, List.mem_singleton, not_or] at hj'
      rw [row_of_writeAt_ne hnext hwidth (Ne.symm hj'.2), hkeep j' hj'.1]
  obtain ⟨out, hloop, hout, hrows, hkeep⟩ :=
    forUpTo_total _ ⟨hdata, fun i j hi => by omega, fun j _ => rfl⟩ hstep
  refine ⟨out, hloop, hout, fun i j hij => hrows i j (List.getElem?_eq_some_iff.mp hij).1 hij, ?_⟩
  intro j hj
  exact hkeep j (by rwa [List.take_length])

/-- A batch that could be copied had rows at least as long as they are read, and offsets
that are `int`s. -/
theorem copyRows_fits (hidx : ∀ i j, idx[i]? = some j → indices[start + i]? = some j)
    (hne : idx ≠ []) (hpooled : pooled.length = idx.length * c.outDim)
    (h : forUpTo idx.length (OnnxEmbedder.copyRow c.dim indices start pooled) data = .ok out) :
    c.dim ≤ c.outDim ∧ ∀ j ∈ idx, FitsInt ((j : Int) * c.dim) := by
  have hstep : ∀ i j : Nat, idx[i]? = some j → FitsInt ((j : Int) * c.dim) ∧
      i * c.dim + c.dim ≤ pooled.length := by
    intro i j hij
    obtain ⟨s, t, -, hrow⟩ := forUpTo_ran h (List.getElem?_eq_some_iff.mp hij).1
    simp only [OnnxEmbedder.copyRow, bind_ok, get_ok, intOffset, ensure_ok, readAt_ok] at hrow
    obtain ⟨j', hj', -, hfits, -, -, -, ⟨hbound, -⟩, -⟩ := hrow
    cases (hidx i j hij).symm.trans hj'
    exact ⟨hfits, hbound⟩
  refine ⟨?_, fun j hj => ?_⟩
  · have hpos := List.length_pos_iff.mpr hne
    obtain ⟨m, hm⟩ : ∃ m, idx.length = m + 1 := ⟨_, (Nat.sub_add_cancel hpos).symm⟩
    obtain ⟨-, hlast⟩ := hstep m _ (List.getElem?_eq_getElem (by omega))
    rw [hpooled, hm, ← Nat.succ_mul] at hlast
    exact Nat.le_of_mul_le_mul_left hlast (Nat.succ_pos m)
  · obtain ⟨i, hi⟩ := List.getElem?_of_mem hj
    exact (hstep i j hi).1

-- ---------------------------------------------------------------------------
-- `lembed__onnx_embed`
-- ---------------------------------------------------------------------------

variable {b k : Nat}

theorem length_batchAt : (batchAt texts indices b k).length = (slice b indices k).length :=
  List.length_map ..

theorem batchTexts_slice (hlt : ∀ j ∈ indices, j < texts.length) :
    OnnxEmbedder.batchTexts texts indices (k * b) (slice b indices k).length =
      .ok (batchAt texts indices b k) := by
  refine mapM_range' fun i j hij => ?_
  have htext := List.getElem?_eq_getElem (hlt j (mem_of_mem_slice (List.mem_of_getElem? hij)))
  rw [get_ok.mpr (getElem?_of_slice hij), ok_bind, get_ok.mpr htext, List.getD_eq_getElem?_getD, htext]
  rfl

/-- The rows of the batches before `k` are in the matrix. -/
def MatrixHolds (c : DenseConfig) (hidden : Bytes → Nat → List ℚ) (texts : List Bytes)
    (indices : List Nat) (b k : Nat) (data : List ℚ) : Prop :=
  data.length = texts.length * c.dim ∧ ∀ m < k, ∀ i j, (slice b indices m)[i]? = some j →
    row c.dim j data = c.copied hidden (batchAt texts indices b m) i

variable (hperm : indices.Perm (List.range texts.length)) (hb : 0 < b)
  (hfits : (texts.length : Int) + b ≤ intMax)

section

include hperm hb hfits

omit hb hfits in
theorem indices_lt : ∀ j ∈ indices, j < texts.length := fun _ hj =>
  List.mem_range.mp (hperm.mem_iff.mp hj)

/-- The range of a batch is that of its slice of the permuted indices. -/
theorem getBatch_indices (hk : k < sliceCount b texts.length) :
    ∃ range, getBatch k texts.length b = .ok range ∧ range.start.toNat = k * b ∧
      (range.stop - range.start).toNat = (slice b indices k).length := by
  have hlength : indices.length = texts.length := hperm.length_eq.trans List.length_range
  rw [← hlength] at hfits hk ⊢
  exact getBatch_slice hb hfits hk

theorem embedBatch_total (h : c.Independent session hidden)
    (hk : k < sliceCount b texts.length) (hok : c.BatchOk (batchAt texts indices b k))
    (hdim : c.dim ≤ c.outDim) (hoffset : FitsInt (((texts.length - 1 : Nat) : Int) * c.dim))
    (hdata : c.MatrixHolds hidden texts indices b k data) (buf : List ℚ) :
    (c.onnx session).embedBatch texts indices b (.returned (data, buf)) k = .ok .threw ∨
    ∃ out buf', (c.onnx session).embedBatch texts indices b (.returned (data, buf)) k =
      .ok (.returned (out, buf')) ∧ c.MatrixHolds hidden texts indices b (k + 1) out := by
  have hnodup : indices.Nodup := hperm.nodup_iff.mpr List.nodup_range
  have hlt := indices_lt hperm
  obtain ⟨range, hrange, hstart, hbsz⟩ := getBatch_indices hperm hb hfits hk
  rcases pooledBatch_cases h hok buf with hthrew | hpooled
  · left
    simp only [OnnxEmbedder.embedBatch, hrange, ok_bind, hstart, hbsz, batchTexts_slice hlt,
      hthrew]
    rfl
  right
  have hpooledLen := length_pooledOf h (batchAt texts indices b k)
  rw [length_batchAt] at hpooledLen
  have hsliceLe : (slice b indices k).length ≤ texts.length := by
    rw [length_slice, ← hperm.length_eq.trans List.length_range]
    omega
  obtain ⟨out, hcopy, hout, hrows, hkeep⟩ := copyRows_total (slice_nodup hnodup)
    (fun i j hij => getElem?_of_slice hij) (fun j hj => hlt j (mem_of_mem_slice hj)) hsliceLe
    hpooledLen hdim hoffset hdata.1
  refine ⟨out, c.pooledOf hidden (batchAt texts indices b k), ?_, hout, fun m hm i j hij => ?_⟩
  · have hcdim : (c.onnx session).dim = c.dim := rfl
    simp only [OnnxEmbedder.embedBatch, hrange, ok_bind, hstart, hbsz, batchTexts_slice hlt,
      hpooled, hcdim, hcopy]
    rfl
  · rcases Nat.lt_succ_iff_lt_or_eq.mp hm with hlt' | rfl
    · have hnot : j ∉ slice b indices k := fun hj =>
        absurd (slice_disjoint hnodup (List.mem_of_getElem? hij) hj) (by omega)
      rw [hkeep j hnot, hdata.2 m hlt' i j hij]
    · exact hrows i j hij

omit hperm hb hfits in
/-- An exception ends the loop. -/
theorem returned_of_embedBatch {s t : Outcome (List ℚ × List ℚ)} {size : Int}
    (hstep : (c.onnx session).embedBatch texts indices size s k = .ok t)
    (ht : ∃ r, t = .returned r) : ∃ r, s = .returned r := by
  cases s with
  | threw =>
    obtain ⟨r, rfl⟩ := ht
    cases hstep
  | returned r => exact ⟨r, rfl⟩

/-- A batch that was copied was well formed and its rows were inside its buffers. -/
theorem embedBatch_ran (h : c.Independent session hidden) (hk : k < sliceCount b texts.length)
    (hstep : (c.onnx session).embedBatch texts indices b s k = .ok (.returned t)) :
    c.BatchOk (batchAt texts indices b k) ∧ c.dim ≤ c.outDim ∧
      ∀ j ∈ slice b indices k, FitsInt ((j : Int) * c.dim) := by
  have hlt := indices_lt hperm
  obtain ⟨range, hrange, hstart, hbsz⟩ := getBatch_indices hperm hb hfits hk
  have hlength : indices.length = texts.length := hperm.length_eq.trans List.length_range
  have hne : slice b indices k ≠ [] := slice_ne_nil hb (by rwa [hlength])
  obtain ⟨data, buf⟩ | _ := s
  swap
  · cases hstep
  simp only [OnnxEmbedder.embedBatch, hrange, ok_bind, hstart, hbsz, batchTexts_slice hlt] at hstep
  obtain ⟨pooledOut, hpooled, hstep⟩ := bind_ok.mp hstep
  obtain pooledOut | _ := pooledOut
  swap
  · cases hstep
  have hok := batchOk_of_pooledBatch h (by simpa [batchAt] using hne) hpooled
  rcases pooledBatch_cases h hok buf with hthrew | heq
  · cases hpooled.symm.trans hthrew
  cases hpooled.symm.trans heq
  obtain ⟨out, hcopy, -⟩ := bind_ok.mp hstep
  have hpooledLen := length_pooledOf h (batchAt texts indices b k)
  rw [length_batchAt] at hpooledLen
  exact ⟨hok, copyRows_fits (fun i j hij => getElem?_of_slice hij) hne hpooledLen hcopy⟩

/-- A loop over well formed batches throws or fills the matrix. -/
theorem embedLoop_total (h : c.Independent session hidden)
    (hok : ∀ m < sliceCount b texts.length, c.BatchOk (batchAt texts indices b m))
    (hdim : 0 < texts.length → c.dim ≤ c.outDim)
    (hoffset : FitsInt (((texts.length - 1 : Nat) : Int) * c.dim))
    (hdata : data.length = texts.length * c.dim) (buf : List ℚ) :
    ∃ out, forUpTo (sliceCount b texts.length) ((c.onnx session).embedBatch texts indices b)
      (.returned (data, buf)) = .ok out ∧ ∀ r, out = .returned r →
      c.MatrixHolds hidden texts indices b (sliceCount b texts.length) r.1 := by
  refine forUpTo_total (fun k (out : Outcome (List ℚ × List ℚ)) => ∀ r, out = .returned r →
    c.MatrixHolds hidden texts indices b k r.1) ?_ ?_
  · rintro r ⟨⟩
    exact ⟨hdata, fun m hm => by omega⟩
  · intro m s hm hs
    cases s with
    | threw => exact ⟨.threw, rfl, fun r hr => nomatch hr⟩
    | returned r =>
      have hpos : 0 < texts.length := (Nat.zero_le _).trans_lt (slice_start_lt hb hm)
      rcases embedBatch_total hperm hb hfits h hm (hok m hm) (hdim hpos) hoffset (hs r rfl) r.2
        with hthrew | ⟨next, buf', hnext, hholds⟩
      · exact ⟨.threw, hthrew, fun r hr => nomatch hr⟩
      · refine ⟨_, hnext, ?_⟩
        rintro _ ⟨⟩
        exact hholds

/-- A loop that returns had well formed batches only. -/
theorem embedLoop_ran (h : c.Independent session hidden)
    (hrun : forUpTo (sliceCount b texts.length) ((c.onnx session).embedBatch texts indices b)
      (.returned (data, buf)) = .ok (.returned out)) {m : Nat} (hm : m < sliceCount b texts.length) :
    c.BatchOk (batchAt texts indices b m) ∧ c.dim ≤ c.outDim ∧
      ∀ j ∈ slice b indices m, FitsInt ((j : Int) * c.dim) := by
  obtain ⟨s, t, -, hstep, hreturned⟩ := forUpTo_ran_of (fun s => ∃ r, s = .returned r)
    (fun i s t hstep ht => returned_of_embedBatch hstep ht) hrun ⟨out, rfl⟩ hm
  obtain ⟨r, rfl⟩ := hreturned
  exact embedBatch_ran hperm hb hfits h hm hstep

end

-- ---------------------------------------------------------------------------
-- `lembed__onnx_embed_stream`
-- ---------------------------------------------------------------------------

/-- What the callback gets for a text. -/
def streamed (c : DenseConfig) (hidden : Bytes → Nat → List ℚ) (text : Bytes) : List ℚ :=
  (c.vecOf hidden text).take c.dim

theorem deliverRows_total (batch : List Bytes) (h : c.Independent session hidden)
    (hdim : c.dim ≤ c.outDim) (delivered : List (List ℚ)) :
    forUpTo batch.length (OnnxEmbedder.deliverRow c.dim c.outDim (c.pooledOf hidden batch))
      delivered = .ok (delivered ++ batch.map (c.streamed hidden)) := by
  have hlen := length_pooledOf h batch
  have hloop : ∃ out, forUpTo batch.length
      (OnnxEmbedder.deliverRow c.dim c.outDim (c.pooledOf hidden batch)) delivered = .ok out ∧
      out = delivered ++ (batch.take batch.length).map (c.streamed hidden) := by
    refine forUpTo_total (fun k (out : List (List ℚ)) =>
      out = delivered ++ (batch.take k).map (c.streamed hidden)) (by simp) ?_
    rintro k out hk rfl
    have htext := List.getElem?_eq_getElem hk
    have hrow : row c.outDim k (c.pooledOf hidden batch) = c.vecOf hidden batch[k] :=
      row_flatMap (fun text _ => length_vecOf h text) htext
    have hread : readAt (c.pooledOf hidden batch) (k * c.outDim) c.dim =
        .ok (c.streamed hidden batch[k]) := by
      have hbound := row_bound hk c.outDim
      refine readAt_ok.mpr ⟨by omega, ?_⟩
      rw [streamed, ← hrow, row, List.take_take, Nat.min_eq_left hdim]
    refine ⟨_, by rw [OnnxEmbedder.deliverRow, hread]; rfl, ?_⟩
    rw [List.take_add_one, htext, List.append_assoc, List.map_append]
    rfl
  obtain ⟨out, hout, rfl⟩ := hloop
  rw [hout, List.take_length]

/-- The vectors of the first texts are delivered, those of the batches before `k` unless
the session threw. -/
def Delivered (c : DenseConfig) (hidden : Bytes → Nat → List ℚ) (texts : List Bytes) (b k : Nat)
    (s : OnnxEmbedder.Stream) : Prop :=
  ∃ m, s.delivered = (texts.take m).map (c.streamed hidden) ∧ (s.threw = false → m = k * b)

/-- The strings of a batch are read one by one. -/
theorem mapM_slice (texts : List Bytes) (b k : Nat) :
    (List.range' (k * b) (slice b texts k).length).mapM (get texts) = .ok (slice b texts k) := by
  have hbatch : (List.range' (k * b) (slice b texts k).length).mapM (get texts) =
      .ok ((slice b texts k).map id) :=
    mapM_range' fun i text hi => get_ok.mpr (getElem?_of_slice hi)
  rwa [List.map_id] at hbatch

section

include hb hfits

theorem streamBatch_total (h : c.Independent session hidden) (hk : k < sliceCount b texts.length)
    (hok : c.BatchOk (slice b texts k)) (hdim : c.dim ≤ c.outDim)
    (hs : c.Delivered hidden texts b k s) : ∃ t, (c.onnx session).streamBatch texts b s k = .ok t ∧
      c.Delivered hidden texts b (k + 1) t := by
  obtain ⟨m, hdelivered, hm⟩ := hs
  cases hthrew : s.threw with
  | true =>
    refine ⟨s, by rw [OnnxEmbedder.streamBatch, if_pos hthrew], m, hdelivered, fun h => ?_⟩
    cases hthrew.symm.trans h
  | false =>
  obtain rfl := hm hthrew
  obtain ⟨range, hrange, hstart, hbsz⟩ := getBatch_slice (l := texts) (k := k) hb hfits hk
  rcases pooledBatch_cases h hok s.pooledBuf with hthrow | hpooled
  · refine ⟨{ s with threw := true }, ?_, _, hdelivered, nofun⟩
    simp only [OnnxEmbedder.streamBatch, hthrew, hrange, ok_bind, hstart, hbsz, mapM_slice, hthrow]
    rfl
  have hrows := deliverRows_total (slice b texts k) h hdim s.delivered
  refine ⟨⟨s.delivered ++ (slice b texts k).map (c.streamed hidden),
    c.pooledOf hidden (slice b texts k), false⟩, ?_, (k + 1) * b, ?_, fun _ => rfl⟩
  · have hcdim : (c.onnx session).dim = c.dim := rfl
    simp only [OnnxEmbedder.streamBatch, hthrew, hrange, ok_bind, hstart, hbsz, mapM_slice,
      hpooled, hcdim, hrows]
    rfl
  · show s.delivered ++ _ = _
    rw [hdelivered, ← List.map_append, take_append_slice]

omit hb hfits in
/-- An exception ends the stream. -/
theorem threw_of_streamBatch {s t : OnnxEmbedder.Stream} {size : Int}
    (hstep : (c.onnx session).streamBatch texts size s k = .ok t) (ht : t.threw = false) :
    s.threw = false := by
  cases hthrew : s.threw with
  | true =>
    rw [OnnxEmbedder.streamBatch, if_pos hthrew] at hstep
    cases hstep
    exact hthrew.symm.trans ht
  | false => rfl

theorem streamBatch_ran (h : c.Independent session hidden) (hk : k < sliceCount b texts.length)
    (hstep : (c.onnx session).streamBatch texts b s k = .ok t) (ht : t.threw = false) :
    c.BatchOk (slice b texts k) := by
  obtain ⟨range, hrange, hstart, hbsz⟩ := getBatch_slice (l := texts) (k := k) hb hfits hk
  have hthrew : s.threw = false := threw_of_streamBatch hstep ht
  simp only [OnnxEmbedder.streamBatch, hthrew, hrange, ok_bind, hstart, hbsz, mapM_slice] at hstep
  obtain ⟨pooledOut, hpooled, hstep⟩ := bind_ok.mp hstep
  cases pooledOut with
  | threw =>
    cases hstep
    cases ht
  | returned pooledOut => exact batchOk_of_pooledBatch h (slice_ne_nil hb hk) hpooled

theorem streamLoop_total (h : c.Independent session hidden)
    (hok : ∀ m < sliceCount b texts.length, c.BatchOk (slice b texts m))
    (hdim : 0 < texts.length → c.dim ≤ c.outDim) (buf : List ℚ) :
    ∃ out, forUpTo (sliceCount b texts.length) ((c.onnx session).streamBatch texts b)
      ⟨[], buf, false⟩ = .ok out ∧
      c.Delivered hidden texts b (sliceCount b texts.length) out := by
  refine forUpTo_total (c.Delivered hidden texts b) ⟨0, by simp⟩ fun m s hm hs => ?_
  have hpos : 0 < texts.length := (Nat.zero_le _).trans_lt (slice_start_lt hb hm)
  exact streamBatch_total hb hfits h hm (hok m hm) (hdim hpos) hs

theorem streamLoop_ran (h : c.Independent session hidden)
    (hrun : forUpTo (sliceCount b texts.length) ((c.onnx session).streamBatch texts b)
      ⟨[], buf, false⟩ = .ok out) (hout : out.threw = false) {m : Nat}
    (hm : m < sliceCount b texts.length) : c.BatchOk (slice b texts m) := by
  obtain ⟨s, t, -, hstep, ht⟩ := forUpTo_ran_of (fun s : OnnxEmbedder.Stream => s.threw = false)
    (fun i s t hstep ht => threw_of_streamBatch hstep ht) hrun hout hm
  exact streamBatch_ran hb hfits h hm hstep ht

end

end DenseConfig

end LibEmbedding
