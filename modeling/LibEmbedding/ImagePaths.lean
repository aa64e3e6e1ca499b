import LibEmbedding.ImageEmbedding

/-!
# The two image paths

What the matrix of a call holds, for a model whose output for an image does not depend on the
other images of its batch, and exactly when both paths return the normalised output rows.
-/

namespace LibEmbedding

open Foundation

namespace ImageModel

variable {m : ImageModel} {mid : List Nat} {width : Nat} {rows : Pixels → List ℚ}

/-- The session may throw, but what it returns for an image, `mid.prod` rows of `width`, is
`rows` of it, whatever the other images of the batch. -/
structure Independent (m : ImageModel) (mid : List Nat) (width : Nat) (rows : Pixels → List ℚ) :
    Prop where
  length : ∀ pixels, (rows pixels).length = mid.prod * width
  run : ∀ name, ∀ batch : List Pixels,
    m.run name (batch.flatMap Subtype.val) [batch.length, 3, targetSize, targetSize] = .threw ∨
      ∃ output rest, m.run name (batch.flatMap Subtype.val)
          [batch.length, 3, targetSize, targetSize] = .returned (output :: rest) ∧
        output.shape = batch.length :: (mid ++ [width]) ∧ output.data = batch.flatMap rows

-- ---------------------------------------------------------------------------
-- One batch
-- ---------------------------------------------------------------------------

theorem pixelOffset_ok : pixelOffset i = .ok offset ↔
    ((i * pixelCount : Nat) : Int) ≤ intMax ∧ i * pixelCount = offset := by
  simp only [pixelOffset, mulInt, bind_ok, pure_ok, narrow_ok, fitsInt_iff, intMax, targetSize,
    pixelCount]
  constructor
  · rintro ⟨_, ⟨_, rfl⟩, _, ⟨_, rfl⟩, _, ⟨hfits, rfl⟩, rfl⟩
    omega
  · rintro ⟨hfits, rfl⟩
    exact ⟨_, ⟨by omega, rfl⟩, _, ⟨by omega, rfl⟩, _, ⟨by omega, rfl⟩, by omega⟩

theorem pixelOffset_eq (h : ((n * pixelCount : Nat) : Int) ≤ intMax) (hi : i ≤ n) :
    pixelOffset i = .ok (i * pixelCount) := by
  have hle := Nat.mul_le_mul_right pixelCount hi
  exact pixelOffset_ok.mpr ⟨by omega, rfl⟩

theorem loadBytes_eq {images : List Bytes} (h : images[i]? = some image) :
    m.loadBytes images i = match m.decode image with
      | none => .ok .threw
      | some x => .ok (.returned x) := by
  rw [loadBytes, get_ok.mpr h, ok_bind]
  rfl

/-- The images before `i` fill the first places. -/
def Filled (m : ImageModel) (batch : List Bytes) (i : Nat) (s : Outcome (List ℚ)) : Prop :=
  s = .threw ∨ ∃ (pixels : List Pixels) (buf : List ℚ), s = .returned buf ∧
    (batch.take i).map m.decode = pixels.map some ∧ buf.length = batch.length * pixelCount ∧
    ∀ j x, pixels[j]? = some x → row pixelCount j buf = x.val

theorem fillImage_step {images batch : List Bytes} {start i : Nat}
    (hfits : ((batch.length * pixelCount : Nat) : Int) ≤ intMax) (hi : i < batch.length)
    (himage : images[start + i]? = batch[i]?) (h : m.Filled batch i s) :
    ∃ t, fillImage (m.loadBytes images) start s i = .ok t ∧ m.Filled batch (i + 1) t := by
  rcases h with rfl | ⟨pixels, buf, rfl, hdecoded, hlen, hrows⟩
  · exact ⟨.threw, rfl, .inl rfl⟩
  · rw [List.getElem?_eq_getElem hi] at himage
    simp only [fillImage, loadBytes_eq himage, pixelOffset_eq hfits hi.le, ok_bind]
    cases hdecode : m.decode batch[i] with
    | none => exact ⟨.threw, rfl, .inl rfl⟩
    | some x =>
      obtain ⟨out, hout⟩ := writeAt_row_ok hlen hi x.property
      have hcount : pixels.length = i := by
        have hlength := congrArg List.length hdecoded
        simp only [List.length_map, List.length_take] at hlength
        omega
      refine ⟨.returned out, ?_, .inr ⟨pixels ++ [x], out, rfl, ?_, ?_, ?_⟩⟩
      · dsimp only
        rw [ok_bind]
        dsimp only
        rw [hout]
        rfl
      · rw [List.take_add_one, List.map_append, hdecoded, List.getElem?_eq_getElem hi]
        simp [hdecode]
      · rw [length_of_writeAt hout, hlen]
      · intro j y hy
        rcases Nat.lt_trichotomy j i with hlt | rfl | hgt
        · rw [List.getElem?_append_left (by omega)] at hy
          rw [row_of_writeAt_ne hout x.property (by omega), hrows j y hy]
        · rw [← hcount, List.getElem?_concat_length] at hy
          cases hy
          exact row_of_writeAt hout x.property
        · rw [List.getElem?_eq_none (by simp; omega)] at hy
          cases hy

/-- A batch buffer holds the images of its batch, unless one cannot be decoded. -/
theorem fillBatch_total {images batch : List Bytes} {start : Nat}
    (hfits : ((batch.length * pixelCount : Nat) : Int) ≤ intMax)
    (himages : ∀ i < batch.length, images[start + i]? = batch[i]?) :
    fillBatch (m.loadBytes images) start batch.length = .ok .threw ∨
      ∃ pixels : List Pixels, batch.map m.decode = pixels.map some ∧
        fillBatch (m.loadBytes images) start batch.length =
          .ok (.returned (pixels.flatMap Subtype.val)) := by
  obtain ⟨s, hloop, hs⟩ := forUpTo_total (m.Filled batch)
    (.inr ⟨[], List.replicate (batch.length * pixelCount) 0, rfl, rfl, by simp, nofun⟩)
    fun i s hi hs => fillImage_step hfits hi (himages i hi) hs
  have hfill : fillBatch (m.loadBytes images) start batch.length = .ok s := by
    rw [fillBatch, pixelOffset_eq hfits le_rfl, ok_bind, hloop]
  rcases hs with rfl | ⟨pixels, buf, rfl, hdecoded, hlen, hrows⟩
  · exact .inl hfill
  · rw [List.take_length] at hdecoded
    have hcount := congrArg List.length hdecoded
    rw [List.length_map, List.length_map] at hcount
    refine .inr ⟨pixels, hdecoded, ?_⟩
    rw [hfill, eq_flatMap (fun x _ => x.property) (by rw [hlen, hcount]) hrows]

theorem inputName_total (m : ImageModel) : ∃ name, m.inputName = .ok name := by
  unfold inputName
  split
  · exact ⟨_, rfl⟩
  · split
    · exact ⟨_, rfl⟩
    · have hpos := List.length_pos_iff.mpr m.inputNamesNonempty
      exact ⟨m.inputNames[0], get_ok.mpr (List.getElem?_eq_getElem hpos)⟩

/-- What a batch runs into: an exception, or the output rows of its images. -/
theorem runBatch_total (h : m.Independent mid width rows) {images : List Bytes} {b k : Nat}
    (hb : 0 < b) (hn : (images.length : Int) + b ≤ intMax) (hk : k < sliceCount b images.length)
    (hfits : ((min b images.length * pixelCount : Nat) : Int) ≤ intMax) :
    m.runBatch (m.loadBytes images) images.length b k = .ok .threw ∨
      ∃ (pixels : List Pixels) (output : Tensor ℚ),
        (slice b images k).map m.decode = pixels.map some ∧
        m.runBatch (m.loadBytes images) images.length b k =
          .ok (.returned (pixels.length, output)) ∧
        output.shape = pixels.length :: (mid ++ [width]) ∧ output.data = pixels.flatMap rows := by
  obtain ⟨range, hrange, hstart, hlength⟩ := getBatch_slice hb hn hk
  have hslice : (slice b images k).length ≤ min b images.length := by
    rw [length_slice]
    omega
  have hbatch : (((slice b images k).length * pixelCount : Nat) : Int) ≤ intMax := by
    have := Nat.mul_le_mul_right pixelCount hslice
    omega
  have himages : ∀ i < (slice b images k).length,
      images[k * b + i]? = (slice b images k)[i]? := by
    intro i hi
    rw [getElem?_slice (by rw [length_slice] at hi; omega)]
  obtain ⟨name, hname⟩ := m.inputName_total
  simp only [runBatch, hrange, ok_bind, hstart, hlength]
  rcases fillBatch_total (m := m) hbatch himages with hthrew | ⟨pixels, hdecoded, hfilled⟩
  · exact .inl (by rw [hthrew]; rfl)
  · have hcount := congrArg List.length hdecoded
    rw [List.length_map, List.length_map] at hcount
    rw [hfilled, hcount, ok_bind]
    simp only [hname, ok_bind]
    rcases h.run name pixels with hthrew | ⟨output, rest, hrun, hshape, hdata⟩
    · exact .inl (by rw [hthrew]; rfl)
    · refine .inr ⟨pixels, output, hdecoded, ?_, hshape, hdata⟩
      rw [hrun]
      rfl

/-- What a stored batch leaves in each row, when the rows of its output are those of the
result. -/
theorem storeBatch_total (m : ImageModel) (off bsz : Nat) {data : List ℚ} {output : Tensor ℚ}
    {dim n r : Nat} (hdata : data.length = n * dim) (hoff : off + bsz ≤ n) (hn : (n : Int) ≤ intMax)
    (hstart : ((off * dim : Nat) : Int) ≤ intMax) (hout : output.data.length = r * dim)
    (hr : bsz ≤ r) (hrows : FitsInt (((bsz - 1 : Nat) : Int) * dim)) :
    ∃ next, m.storeBatch dim dim (data, off) bsz output = .ok (next, off + bsz) ∧
      next.length = n * dim ∧ ∀ i, row dim i next = if off ≤ i ∧ i < off + bsz
        then normalizeRow m.sqrt.sqrt (row dim (i - off) output.data) else row dim i data := by
  have hmin : intMin ≤ 0 := by decide
  have hoffset : intOffset off dim = .ok () := by
    refine ensure_pos ⟨?_, ?_⟩ <;> push_cast at hstart ⊢
    · have : 0 ≤ (off : Int) * dim := by positivity
      omega
    · exact hstart
  obtain ⟨normalized, hnormalize, hlen, hnormal⟩ :=
    l2Normalize_rows m.sqrt.sqrt hout hr hrows
  have hroom : bsz * dim ≤ normalized.length := hlen ▸ Nat.mul_le_mul_right dim hr
  have hread : readAt normalized 0 (bsz * dim) = .ok (normalized.take (bsz * dim)) :=
    readAt_ok.mpr ⟨by omega, by rw [List.drop_zero]⟩
  have htaken : (normalized.take (bsz * dim)).length = bsz * dim := length_of_readAt hread
  have hinside : off * dim + bsz * dim ≤ data.length := by
    rw [hdata, ← Nat.add_mul]
    exact Nat.mul_le_mul_right dim hoff
  obtain ⟨next, hnext⟩ : ∃ next, writeAt data (off * dim) (normalized.take (bsz * dim)) = .ok next :=
    ⟨_, writeAt_ok.mpr ⟨by omega, rfl⟩⟩
  have hsum : addInt off bsz = .ok ((off + bsz : Nat) : Int) := narrow_eq ⟨by omega, by omega⟩
  refine ⟨next, ?_, (length_of_writeAt hnext).trans hdata, fun i => ?_⟩
  · simp only [storeBatch, hnormalize, hoffset, hread, hnext, hsum, ok_bind]
    rfl
  · rw [row_of_writeRows hnext htaken]
    by_cases hi : off ≤ i ∧ i < off + bsz
    · have hlt : i - off < bsz := by omega
      rw [if_pos hi, if_pos hi, row_take (row_bound hlt dim), hnormal _ hlt]
    · rw [if_neg hi, if_neg hi]

-- ---------------------------------------------------------------------------
-- The loop
-- ---------------------------------------------------------------------------

/-- Row `i` is the normalised row at the place of image `i` in the output of its batch. -/
def RowOfBatch (m : ImageModel) (rows : Pixels → List ℚ) (images : List Bytes) (dim b : Nat)
    (data : List ℚ) (i : Nat) : Prop :=
  ∃ pixels : List Pixels, (slice b images (i / b)).map m.decode = pixels.map some ∧
    row dim i data = normalizeRow m.sqrt.sqrt (row dim (i % b) (pixels.flatMap rows))

/-- The state after `k` batches. -/
def Stored (m : ImageModel) (rows : Pixels → List ℚ) (images : List Bytes) (dim b k : Nat)
    (s : Outcome (List ℚ × Nat)) : Prop :=
  s = .threw ∨ ∃ data, s = .returned (data, min (k * b) images.length) ∧
    data.length = images.length * dim ∧
    ∀ i < min (k * b) images.length, m.RowOfBatch rows images dim b data i

/-- The `int`s of a call on `n` images in batches of `b`. -/
structure IntsFit (n b dim : Nat) : Prop where
  count : (n : Int) + b ≤ intMax
  input : ((min b n * pixelCount : Nat) : Int) ≤ intMax
  norm : FitsInt (((min b n - 1 : Nat) : Int) * dim)
  start : (((sliceCount b n - 1) * b * dim : Nat) : Int) ≤ intMax

/-- A batch that is inside the buffers: it throws, or stores its rows. -/
theorem embedBatch_step (h : m.Independent mid width rows) {images : List Bytes} {b k : Nat}
    (hb : 0 < b) (hfit : IntsFit images.length b width) (hmid : 0 < mid.prod)
    {stride : List Nat → Nat} (hstride : ∀ bsz, stride (bsz :: (mid ++ [width])) = width)
    (hk : k < sliceCount b images.length) (hs : m.Stored rows images width b k s) :
    ∃ t, m.embedBatch width stride (m.loadBytes images) images.length b s k = .ok t ∧
      m.Stored rows images width b (k + 1) t := by
  rcases hs with rfl | ⟨data, rfl, hdata, hstored⟩
  · exact ⟨.threw, rfl, .inl rfl⟩
  · have hlt := slice_start_lt hb hk
    rcases runBatch_total h hb hfit.count hk hfit.input with
      hthrew | ⟨pixels, output, hdecoded, hrun, hshape, hout⟩
    · refine ⟨.threw, ?_, .inl rfl⟩
      simp only [embedBatch, hthrew, ok_bind]
      rfl
    · have hcount := congrArg List.length hdecoded
      rw [List.length_map, List.length_map, length_slice] at hcount
      have hend : min (k * b) images.length + pixels.length = min ((k + 1) * b) images.length := by
        rw [Nat.succ_mul]
        omega
      have hoff : min (k * b) images.length = k * b := by omega
      have hlength : output.data.length = pixels.length * mid.prod * width := by
        rw [hout, length_flatMap fun x _ => h.length x, Nat.mul_assoc]
      have hstart : ((k * b * width : Nat) : Int) ≤ intMax := by
        have hle := Nat.mul_le_mul_right width (Nat.mul_le_mul_right b (Nat.le_sub_one_of_lt hk))
        have := hfit.start
        omega
      have hnorm : FitsInt (((pixels.length - 1 : Nat) : Int) * width) := by
        refine ⟨?_, le_trans (mul_le_mul_of_nonneg_right ?_ (by positivity)) hfit.norm.2⟩
        · have hmin : intMin ≤ 0 := by decide
          have : 0 ≤ ((pixels.length - 1 : Nat) : Int) * width := by positivity
          omega
        · omega
      have hmax := hfit.count
      obtain ⟨next, hstore, hnext, hrows⟩ := storeBatch_total m
        (min (k * b) images.length) pixels.length hdata (by omega) (by omega)
        (by rw [hoff]; exact hstart) hlength (Nat.le_mul_of_pos_right _ hmid) hnorm
      refine ⟨.returned (next, min ((k + 1) * b) images.length), ?_,
        .inr ⟨next, rfl, hnext, fun i hi => ?_⟩⟩
      · simp only [embedBatch, hrun, ok_bind, hshape, hstride, hstore, hend]
        rfl
      · rw [← hend, hoff] at hi
        unfold RowOfBatch
        rw [hrows i, hoff]
        by_cases hnew : k * b ≤ i
        · obtain ⟨j, rfl⟩ := Nat.exists_eq_add_of_le hnew
          have hj : j < b := by omega
          have hmod : (k * b + j) % b = j := by
            rw [Nat.mul_comm, Nat.mul_add_mod, Nat.mod_eq_of_lt hj]
          rw [if_pos ⟨hnew, hi⟩, row_of_place hj, hmod, Nat.add_sub_cancel_left, hout]
          exact ⟨pixels, hdecoded, rfl⟩
        · rw [if_neg fun hin => hnew hin.1]
          exact hstored i (by omega)

/-- What the loop of either path comes to. -/
theorem embedBatches_total (h : m.Independent mid width rows) {images : List Bytes} {b : Nat}
    (hb : 0 < b) (hfit : IntsFit images.length b width) (hmid : 0 < mid.prod)
    (stride : List Nat → Nat) (hstride : ∀ bsz, stride (bsz :: (mid ++ [width])) = width) :
    ∃ result, m.embedBatches width stride (m.loadBytes images) images.length b =
        .ok (result, sliceCount b images.length) ∧
      ∀ data, result = .returned data → data.length = images.length * width ∧
        ∀ i < images.length, m.RowOfBatch rows images width b data i := by
  have hcount : batchCount images.length b = .ok ((sliceCount b images.length : Nat) : Int) :=
    (batchCount_slices hb).mpr ⟨hfit.count, rfl⟩
  have hinit : m.Stored rows images width b 0 (.returned (malloc (images.length * width), 0)) :=
    .inr ⟨_, by rw [Nat.zero_mul, Nat.zero_min], length_malloc _, fun i hi => by omega⟩
  obtain ⟨s, hloop, hs⟩ := forUpTo_total (m.Stored rows images width b) hinit
    fun k s hk hs => embedBatch_step h hb hfit hmid hstride hk hs
  simp only [embedBatches, hcount, ok_bind, Int.toNat_natCast, hloop]
  rcases hs with rfl | ⟨data, rfl, hdata, hrows⟩
  · exact ⟨.threw, rfl, nofun⟩
  · refine ⟨.returned data, rfl, ?_⟩
    rintro _ ⟨⟩
    rw [Nat.min_eq_right (le_sliceCount_mul hb images.length)] at hrows
    exact ⟨hdata, hrows⟩

/-- Row lengths that agree on the outputs of a model give the same loop. -/
theorem embedBatches_congr (h : m.Independent mid width rows) {images : List Bytes} {b : Nat}
    (hb : 0 < b) (hcount : (images.length : Int) + b ≤ intMax)
    (hinput : ((min b images.length * pixelCount : Nat) : Int) ≤ intMax)
    (dim : Nat) (stride stride' : List Nat → Nat)
    (hstride : ∀ bsz, stride (bsz :: (mid ++ [width])) = stride' (bsz :: (mid ++ [width]))) :
    m.embedBatches dim stride (m.loadBytes images) images.length b =
      m.embedBatches dim stride' (m.loadBytes images) images.length b := by
  have hnum : batchCount images.length b = .ok ((sliceCount b images.length : Nat) : Int) :=
    (batchCount_slices hb).mpr ⟨hcount, rfl⟩
  simp only [embedBatches, hnum, ok_bind, Int.toNat_natCast]
  congr 1
  refine forUpTo_congr fun k hk s => ?_
  cases s with
  | threw => rfl
  | returned s =>
    rcases runBatch_total h hb hcount hk hinput with
      hthrew | ⟨pixels, output, hdecoded, hrun, hshape, hout⟩
    · simp only [embedBatch, hthrew, ok_bind]
    · simp only [embedBatch, hrun, ok_bind, hshape, hstride]

-- ---------------------------------------------------------------------------
-- What a call that succeeds has checked
-- ---------------------------------------------------------------------------

/-- Every image can be decoded, and no run throws. -/
structure Steady (m : ImageModel) : Prop where
  decode : ∀ image, m.decode image ≠ none
  run : ∀ name data shape, m.run name data shape ≠ .threw

theorem fillBatch_steady (h : m.Steady) {images : List Bytes} :
    fillBatch (m.loadBytes images) start bsz ≠ .ok .threw := by
  intro hfill
  obtain ⟨size, -, hloop⟩ := bind_ok.mp hfill
  have hinit : (.returned (List.replicate size 0) : Outcome (List ℚ)) ≠ .threw := nofun
  refine forUpTo_invariant (fun _ (s : Outcome (List ℚ)) => s ≠ .threw) hinit ?_ hloop rfl
  rintro i s t hi hs hstep
  cases s with
  | threw => exact absurd rfl hs
  | returned buf =>
    simp only [fillImage, bind_ok] at hstep
    obtain ⟨offset, -, loaded, hload, hstep⟩ := hstep
    cases loaded with
    | threw =>
      simp only [loadBytes, bind_ok] at hload
      obtain ⟨image, -, hload⟩ := hload
      cases hdecode : m.decode image with
      | none => exact absurd hdecode (h.decode image)
      | some x =>
        rw [hdecode] at hload
        cases hload
    | returned x =>
      obtain ⟨out, -, hout⟩ := bind_ok.mp hstep
      cases hout
      exact nofun

theorem runBatch_steady (h : m.Steady) {images : List Bytes} {b : Int} {k : Nat} :
    m.runBatch (m.loadBytes images) n b k ≠ .ok .threw := by
  intro hrun
  simp only [runBatch, bind_ok] at hrun
  obtain ⟨range, -, filled, hfill, hrun⟩ := hrun
  cases filled with
  | threw => exact fillBatch_steady h hfill
  | returned batchData =>
    obtain ⟨name, -, hrun⟩ := bind_ok.mp hrun
    split at hrun
    · exact h.run _ _ _ ‹_›
    · obtain ⟨output, -, hrun⟩ := bind_ok.mp hrun
      cases hrun

/-- The first thing a batch does is to find the size of its input. -/
theorem runBatch_fits {load : Nat → Checked (Outcome Pixels)} {images : List Bytes} {b k : Nat}
    (hb : 0 < b) (hn : (images.length : Int) + b ≤ intMax) (hk : k < sliceCount b images.length)
    (h : m.runBatch load images.length b k = .ok out) :
    (((slice b images k).length * pixelCount : Nat) : Int) ≤ intMax := by
  obtain ⟨range, hrange, -, hlength⟩ := getBatch_slice hb hn hk
  simp only [runBatch, hrange, ok_bind, hlength, bind_ok] at h
  obtain ⟨filled, hfill, -⟩ := h
  obtain ⟨size, hsize, -⟩ := bind_ok.mp hfill
  exact (pixelOffset_ok.mp hsize).1

theorem storeBatch_ok {data : List ℚ} {output : Tensor ℚ} {dim off bsz : Nat} (hbsz : 0 < bsz)
    (h : m.storeBatch dim dim (data, off) bsz output = .ok next) :
    FitsInt (((bsz - 1 : Nat) : Int) * dim) ∧ FitsInt ((off : Int) * dim) ∧
      bsz * dim ≤ output.data.length ∧ next.2 = off + bsz := by
  simp only [storeBatch, bind_ok] at h
  obtain ⟨normalized, hnormalize, _, hoffset, taken, hread, stored, -, sum, hsum, hnext⟩ := h
  have hroom := (readAt_ok.mp hread).1
  rw [length_of_l2Normalize hnormalize, Nat.zero_add] at hroom
  obtain ⟨-, rfl⟩ := narrow_ok.mp hsum
  refine ⟨l2Normalize_fits hbsz hnormalize, ensure_ok.mp hoffset, hroom, ?_⟩
  rw [← Except.ok.inj hnext]
  show ((off : Int) + bsz).toNat = off + bsz
  omega

/-- A batch of a steady model stores its rows. -/
theorem embedBatch_ran (h : m.Independent mid width rows) (hsteady : m.Steady)
    {images : List Bytes} {b k dim : Nat} (hb : 0 < b) (hn : (images.length : Int) + b ≤ intMax)
    (hinput : ((min b images.length * pixelCount : Nat) : Int) ≤ intMax)
    (hk : k < sliceCount b images.length) {s : List ℚ × Nat}
    (hstep : m.embedBatch dim (fun _ => dim) (m.loadBytes images) images.length b (.returned s) k =
      .ok t) : ∃ (pixels : List Pixels) (output : Tensor ℚ) (next : List ℚ × Nat),
        pixels.length = (slice b images k).length ∧ output.data = pixels.flatMap rows ∧
        m.storeBatch dim dim s pixels.length output = .ok next ∧ t = .returned next := by
  rcases runBatch_total h hb hn hk hinput with
    hthrew | ⟨pixels, output, hdecoded, hrun, hshape, hout⟩
  · exact absurd hthrew (runBatch_steady hsteady)
  · have hlength := congrArg List.length hdecoded
    rw [List.length_map, List.length_map] at hlength
    simp only [embedBatch, hrun, ok_bind, bind_ok] at hstep
    obtain ⟨next, hstore, hnext⟩ := hstep
    cases hnext
    exact ⟨pixels, output, next, hlength.symm, hout, hstore, rfl⟩

/-- A loop that ends stayed inside the `int`s and inside the outputs. -/
theorem embedBatches_ran (h : m.Independent mid width rows) (hsteady : m.Steady)
    {images : List Bytes} {b dim : Nat} (hb : 0 < b) (hpos : 0 < images.length) (hdim : 0 < dim)
    (hloop : m.embedBatches dim (fun _ => dim) (m.loadBytes images) images.length b = .ok out) :
    IntsFit images.length b dim ∧ 0 < mid.prod ∧ out.1 ≠ .threw := by
  simp only [embedBatches, bind_ok] at hloop
  obtain ⟨numBatches, hnum, final, hloop, hfinal⟩ := hloop
  obtain ⟨hcount, rfl⟩ := (batchCount_slices hb).mp hnum
  rw [Int.toNat_natCast] at hloop
  have hbatches := sliceCount_pos hb hpos
  have hfirst : (slice b images 0).length = min b images.length := by
    rw [length_slice, Nat.zero_mul, Nat.sub_zero]
  obtain ⟨init, first, hinit, hstep⟩ := forUpTo_ran hloop hbatches
  cases hinit
  have hinput : ((min b images.length * pixelCount : Nat) : Int) ≤ intMax := by
    obtain ⟨run, hrun, -⟩ := bind_ok.mp hstep
    have hfits := runBatch_fits hb hcount hbatches hrun
    rwa [hfirst] at hfits
  obtain ⟨pixels, output, next, hlength, hout, hstore, -⟩ :=
    embedBatch_ran h hsteady hb hcount hinput hbatches hstep
  rw [hlength, hfirst] at hstore
  obtain ⟨hnorm, -, hroom, -⟩ := storeBatch_ok (by omega) hstore
  have hoffsets : ∀ k < sliceCount b images.length, ∀ s,
      forUpTo k (m.embedBatch dim (fun _ => dim) (m.loadBytes images) images.length b)
        (.returned (malloc (images.length * dim), 0)) = .ok s →
      ∃ data, s = .returned (data, min (k * b) images.length) := by
    intro k hk s hs
    refine forUpTo_invariant (fun k (s : Outcome (List ℚ × Nat)) =>
      ∃ data, s = .returned (data, min (k * b) images.length)) ⟨_, by rw [Nat.zero_mul,
        Nat.zero_min]⟩ ?_ hs
    rintro i s t hi ⟨data, rfl⟩ hstep
    obtain ⟨pixels, output, next, hlength, -, hstore, rfl⟩ :=
      embedBatch_ran h hsteady hb hcount hinput (Nat.lt_trans hi hk) hstep
    have hlt := slice_start_lt hb (Nat.lt_trans hi hk)
    rw [length_slice] at hlength
    obtain ⟨-, -, -, hnext⟩ := storeBatch_ok (by omega) hstore
    refine ⟨next.1, congrArg Outcome.returned (Prod.ext rfl ?_)⟩
    show next.2 = min ((i + 1) * b) images.length
    rw [hnext, hlength, Nat.succ_mul]
    omega
  have hlast : sliceCount b images.length - 1 < sliceCount b images.length := by omega
  obtain ⟨s, t, hs, hstep⟩ := forUpTo_ran hloop hlast
  obtain ⟨data, rfl⟩ := hoffsets _ hlast s hs
  obtain ⟨lastPixels, lastOutput, lastNext, hlastLength, -, hlastStore, rfl⟩ :=
    embedBatch_ran h hsteady hb hcount hinput hlast hstep
  have hlt := slice_start_lt hb hlast
  rw [length_slice] at hlastLength
  obtain ⟨-, hstart, -, -⟩ := storeBatch_ok (by omega) hlastStore
  rw [Nat.min_eq_left hlt.le] at hstart
  refine ⟨⟨hcount, hinput, hnorm, ?_⟩, ?_, ?_⟩
  · have := hstart.2
    push_cast at this ⊢
    exact this
  · rcases Nat.eq_zero_or_pos mid.prod with hzero | hmid
    · rw [hout, length_flatMap fun x _ => h.length x, hzero, Nat.zero_mul, Nat.mul_zero] at hroom
      have := Nat.mul_pos (by omega : 0 < min b images.length) hdim
      omega
    · exact hmid
  · have hend : forUpTo (sliceCount b images.length) (m.embedBatch dim (fun _ => dim)
        (m.loadBytes images) images.length b) (.returned (malloc (images.length * dim), 0)) =
        .ok (.returned lastNext) := by
      rw [← Nat.sub_add_cancel hbatches, forUpTo_succ, hs, ok_bind, hstep]
    cases hend.symm.trans hloop
    cases hfinal
    exact nofun

-- ---------------------------------------------------------------------------
-- A model that shows where a row was read
-- ---------------------------------------------------------------------------

/-- A first row that is not zero, and rows of zeros after it. -/
def probeRows (mid : List Nat) (width : Nat) : List ℚ :=
  (List.range mid.prod).flatMap fun j => if j = 0 then unitRow width 0 else List.replicate width 0

theorem length_probeRow (width j : Nat) :
    (if j = 0 then unitRow width 0 else List.replicate width 0).length = width := by
  split
  · exact length_unitRow
  · exact List.length_replicate

theorem length_probeRows (mid : List Nat) (width : Nat) :
    (probeRows mid width).length = mid.prod * width := by
  rw [probeRows, length_flatMap fun j _ => length_probeRow width j, List.length_range]

theorem row_probeRows (hj : j < mid.prod) : row width j (probeRows mid width) =
    if j = 0 then unitRow width 0 else List.replicate width 0 :=
  row_flatMap (fun j _ => length_probeRow width j) (List.getElem?_range hj)

def probeOutput (mid : List Nat) (width bsz : Nat) : Tensor ℚ where
  data := (List.replicate bsz (probeRows mid width)).flatten
  shape := bsz :: (mid ++ [width])
  sized := by simp [length_probeRows]

/-- Decodes anything, and has the same output for every image. -/
def probe (mid : List Nat) (width : Nat) : ImageModel where
  files := some
  decode _ := some ⟨List.replicate pixelCount 0, List.length_replicate⟩
  inputNames := [ascii "pixel_values"]
  inputNamesNonempty := nofun
  run _ _ shape := .returned [probeOutput mid width (shape.headD 0)]
  sqrt := unitSqrt

theorem probe_independent (mid : List Nat) (width : Nat) :
    (probe mid width).Independent mid width fun _ => probeRows mid width where
  length _ := length_probeRows mid width
  run _ batch := by
    refine .inr ⟨_, [], rfl, rfl, ?_⟩
    rw [List.flatMap_def, List.map_const']
    rfl

theorem probe_steady (mid : List Nat) (width : Nat) : (probe mid width).Steady where
  decode _ := nofun
  run _ _ _ := nofun

end ImageModel

namespace ImageEmbedding

variable {ctx : ImageEmbedding} {m : ImageModel} {mid : List Nat} {width n : Nat}
  {rows : Pixels → List ℚ} {batchSize : Int}

-- ---------------------------------------------------------------------------
-- The paths agree
-- ---------------------------------------------------------------------------

/-- The output row of an image alone: the first row of its output. -/
def outputRow (rows : Pixels → List ℚ) (width : Nat) (x : Pixels) : List ℚ := (rows x).take width

/-- The matrix of the normalised output rows. -/
def RowsOf (m : ImageModel) (rows : Pixels → List ℚ) (width dim : Nat) (images : List Bytes)
    (data : List ℚ) : Prop :=
  data.length = images.length * dim ∧ ∀ i image, images[i]? = some image →
    ∃ x, m.decode image = some x ∧
      row dim i data = normalizeRow m.sqrt.sqrt (outputRow rows width x)

/-- On `n` images, for every model with outputs of this shape: both paths stay inside their
buffers, they reply alike, and a matrix they return holds the normalised output rows. -/
def PathsAgree (ctx : ImageEmbedding) (n : Nat) (batchSize : Int) (mid : List Nat) (width : Nat) :
    Prop :=
  ∀ (m : ImageModel) (rows : Pixels → List ℚ), m.Independent mid width rows →
    ∀ paths images : List Bytes, images.length = n → paths.map m.files = images.map some →
      ∃ reply filesCtx bytesCtx, ctx.embedFiles m paths batchSize = .ok (reply, filesCtx) ∧
        ctx.embedBytes m images batchSize = .ok (reply, bytesCtx) ∧
        (reply.status = .ok → ∃ data, reply.result = some ⟨some data, n, ctx.dim⟩ ∧
          RowsOf m rows width ctx.dim images data)

/-- The outputs have rows of the context's dimension, one for each image unless no batch has
two images, and the offsets are `int`s. -/
structure PathsFit (ctx : ImageEmbedding) (n b : Nat) (mid : List Nat) (width : Nat) : Prop where
  width : width = ctx.dim
  rows : 0 < mid.prod
  alone : mid.prod = 1 ∨ n = 1 ∨ b = 1
  ints : ImageModel.IntsFit n b ctx.dim

theorem callSize_cast (ctx : ImageEmbedding) (batchSize : Int) :
    (((ctx.callSize batchSize).toNat : Nat) : Int) = ctx.callSize batchSize :=
  Int.toNat_of_nonneg (ctx.callSize_pos batchSize).le

theorem loadFile_eq {paths images : List Bytes} (h : paths.map m.files = images.map some)
    (i : Nat) : m.loadFile paths i = m.loadBytes images i := by
  have hlength := congrArg List.length h
  rw [List.length_map, List.length_map] at hlength
  have hplace := congrArg (·[i]?) h
  simp only [List.getElem?_map] at hplace
  unfold ImageModel.loadFile ImageModel.loadBytes Foundation.get
  cases himage : images[i]? with
  | none =>
    rw [himage, Option.map_none, Option.map_eq_none_iff] at hplace
    rw [hplace]
    rfl
  | some image =>
    rw [himage, Option.map_some, Option.map_eq_some_iff] at hplace
    obtain ⟨path, hpath, hfile⟩ := hplace
    rw [hpath]
    simp only [ok_bind, hfile, Option.bind_some]

theorem embedFiles_eq {paths images : List Bytes} (h : paths.map m.files = images.map some)
    (hpos : 0 < images.length)
    (hloop : m.embedBatches ctx.dim ctx.outDim (m.loadBytes images) images.length
      (ctx.callSize batchSize) = .ok (result, numBatches)) :
    ctx.embedFiles m paths batchSize = .ok (ctx.reply images.length result, ctx) := by
  have hlength := congrArg List.length h
  rw [List.length_map, List.length_map] at hlength
  rw [embedFiles, if_neg (by omega), funext (loadFile_eq h), hlength, hloop]
  rfl

theorem embedBytes_eq {images : List Bytes} (hpos : 0 < images.length)
    (hloop : m.embedBatches ctx.dim (fun _ => ctx.dim) (m.loadBytes images) images.length
      (ctx.callSize batchSize) = .ok (result, numBatches)) :
    ∃ next, ctx.embedBytes m images batchSize = .ok (ctx.reply images.length result, next) := by
  rw [embedBytes, if_neg (by omega), hloop, ok_bind]
  cases result with
  | threw => exact ⟨ctx, rfl⟩
  | returned data => exact ⟨ctx.count images.length numBatches, rfl⟩

/-- An output row at the place of its image. -/
theorem row_of_output (h : m.Independent mid width rows) {images : List Bytes} {b i : Nat}
    (hb : 0 < b) (hmid : 0 < mid.prod) (halone : mid.prod = 1 ∨ images.length = 1 ∨ b = 1)
    {pixels : List Pixels} (hdecoded : (slice b images (i / b)).map m.decode = pixels.map some)
    (himage : images[i]? = some image) : ∃ x, m.decode image = some x ∧
      row width (i % b) (pixels.flatMap rows) = outputRow rows width x := by
  have hplace := congrArg (·[i % b]?) hdecoded
  simp only [List.getElem?_map, getElem?_slice (Nat.mod_lt i hb), Nat.div_add_mod', himage,
    Option.map_some] at hplace
  obtain ⟨x, hx, hdecode⟩ := Option.map_eq_some_iff.mp hplace.symm
  refine ⟨x, hdecode.symm, ?_⟩
  have hi := (List.getElem?_eq_some_iff.mp himage).1
  rcases halone with hone | hzero
  · have hlength : ∀ y ∈ pixels, (rows y).length = width := fun y _ => by
      rw [h.length y, hone, Nat.one_mul]
    rw [row_flatMap hlength hx, outputRow, List.take_of_length_le (h.length x ▸ by simp [hone])]
  · have hmod : i % b = 0 := by
      rcases hzero with hn | rfl
      · obtain rfl : i = 0 := by omega
        exact Nat.zero_mod b
      · exact Nat.mod_one i
    rw [hmod] at hx ⊢
    cases pixels with
    | nil => cases hx
    | cons y pixels =>
      cases hx
      have hroom : width ≤ (rows x).length := h.length x ▸ Nat.le_mul_of_pos_left width hmid
      rw [row, Nat.zero_mul, List.drop_zero, List.flatMap_cons,
        List.take_append_of_le_length hroom, outputRow]

theorem agree_of_fit (hfit : ctx.PathsFit n (ctx.callSize batchSize).toNat mid width)
    (hn : 0 < n) : ctx.PathsAgree n batchSize mid width := by
  rintro m rows h paths images rfl hfiles
  have hb : 0 < (ctx.callSize batchSize).toNat := by
    have := ctx.callSize_pos batchSize
    omega
  have hcast := ctx.callSize_cast batchSize
  have hstride : ∀ bsz, ctx.outDim (bsz :: (mid ++ [width])) = width := by
    intro bsz
    rw [outDim, if_pos (by simp), ← List.cons_append, List.getLastD_eq_getLast?,
      List.getLast?_concat, Option.getD_some]
  obtain rfl := hfit.width
  obtain ⟨result, hloop, hresult⟩ :=
    ImageModel.embedBatches_total h hb hfit.ints hfit.rows (fun _ => ctx.dim) fun _ => rfl
  have hsame := ImageModel.embedBatches_congr h hb hfit.ints.count hfit.ints.input
    ctx.dim ctx.outDim (fun _ => ctx.dim) hstride
  rw [hcast] at hloop hsame
  obtain ⟨next, hbytes⟩ := embedBytes_eq hn hloop
  refine ⟨_, _, next, embedFiles_eq hfiles hn (hsame.trans hloop), hbytes, fun hstatus => ?_⟩
  cases result with
  | threw => cases hstatus
  | returned data =>
    obtain ⟨hlength, hrows⟩ := hresult data rfl
    refine ⟨data, rfl, hlength, fun i image himage => ?_⟩
    obtain ⟨pixels, hdecoded, hrow⟩ := hrows i (List.getElem?_eq_some_iff.mp himage).1
    obtain ⟨x, hx, houtput⟩ := row_of_output h hb hfit.rows hfit.alone hdecoded himage
    exact ⟨x, hx, by rw [hrow, houtput]⟩

/-- A second row that is zero is the row of no image. -/
theorem probe_alone (hwidth : 0 < width) (hpos : 0 < n) (hb : 0 < b) (hmid : 0 < mid.prod)
    {images : List Bytes} (hn : images.length = n) {data : List ℚ}
    (hdata : ∀ i < n, (ImageModel.probe mid width).RowOfBatch
      (fun _ => ImageModel.probeRows mid width) images width b data i)
    (hrows : RowsOf (ImageModel.probe mid width) (fun _ => ImageModel.probeRows mid width) width
      width images data) : mid.prod = 1 ∨ n = 1 ∨ b = 1 := by
  by_contra hnone
  push Not at hnone
  obtain ⟨hp, hn1, hb1⟩ := hnone
  have hn1 : 1 < n := by omega
  have himage : images[1]? = some (images.getD 1 []) := by
    rw [List.getD_eq_getElem?_getD, List.getElem?_eq_getElem (by omega)]
    rfl
  obtain ⟨x, -, hrow⟩ := hrows.2 1 _ himage
  obtain ⟨pixels, hdecoded, hstored⟩ := hdata 1 hn1
  rw [Nat.div_eq_of_lt (by omega)] at hdecoded
  rw [Nat.mod_eq_of_lt (by omega)] at hstored
  have hsecond : row width 1 (pixels.flatMap fun _ => ImageModel.probeRows mid width) =
      List.replicate width 0 := by
    cases pixels with
    | nil =>
      have hlength := congrArg List.length hdecoded
      simp only [List.length_map, length_slice, List.length_nil] at hlength
      omega
    | cons y pixels =>
      have hroom : 1 * width + width ≤ (ImageModel.probeRows mid width).length := by
        rw [ImageModel.length_probeRows]
        exact row_bound (by omega) width
      rw [List.flatMap_cons, ← row_take hroom, List.take_left,
        ImageModel.row_probeRows (by omega), if_neg Nat.one_ne_zero]
  have houtput : outputRow (fun _ => ImageModel.probeRows mid width) width x =
      unitRow width 0 := by
    have hfirst : row width 0 (ImageModel.probeRows mid width) = _ := ImageModel.row_probeRows hmid
    rwa [if_pos rfl, row, Nat.zero_mul, List.drop_zero] at hfirst
  rw [hstored, hsecond, houtput, normalize_unitRow _ hwidth, normalize_zeros] at hrow
  have hplace := congrArg (·[0]?) hrow
  simp [getElem?_unitRow hwidth, hwidth] at hplace

theorem fit_of_agree (h : ctx.PathsAgree n batchSize mid width) (hn : 0 < n) :
    ctx.PathsFit n (ctx.callSize batchSize).toNat mid width := by
  have hb : 0 < (ctx.callSize batchSize).toNat := by
    have := ctx.callSize_pos batchSize
    omega
  have hcast := ctx.callSize_cast batchSize
  have hlength : (List.replicate n ([] : Bytes)).length = n := List.length_replicate
  have hprobe := ImageModel.probe_independent mid width
  obtain ⟨reply, _, next, -, hbytes, hreply⟩ := h _ _ hprobe (List.replicate n [])
    (List.replicate n []) hlength rfl
  rw [embedBytes, if_neg (by omega), bind_ok] at hbytes
  obtain ⟨⟨result, numBatches⟩, hloop, hbytes⟩ := hbytes
  rw [← hcast] at hloop
  obtain ⟨hints, hmid, hreturned⟩ := ImageModel.embedBatches_ran hprobe
    (ImageModel.probe_steady mid width) hb (by omega) ctx.dimPos hloop
  rw [hlength] at hints
  cases result with
  | threw => exact absurd rfl hreturned
  | returned data =>
    cases hbytes
    obtain ⟨_, hdata, hrows⟩ := hreply rfl
    obtain rfl := Option.some.inj (congrArg Embeddings.data (Option.some.inj hdata))
    -- a row of the result has the length of an output row
    have hwidth : width = ctx.dim := by
      obtain ⟨x, -, hrow⟩ := hrows.2 0 [] (by simp [hn])
      have hrow := congrArg List.length hrow
      rw [length_row hrows.1 (by omega), length_normalizeRow, outputRow, List.length_take,
        ImageModel.length_probeRows] at hrow
      have := Nat.le_mul_of_pos_left width hmid
      omega
    subst hwidth
    obtain ⟨result, hrun, hstored⟩ := ImageModel.embedBatches_total hprobe hb
      (hlength.symm ▸ hints) hmid (fun _ => ctx.dim) fun _ => rfl
    cases hloop.symm.trans hrun
    refine ⟨rfl, hmid, ?_, hints⟩
    exact probe_alone ctx.dimPos hn hb hmid hlength
      (fun i hi => (hstored data rfl).2 i (by omega)) hrows

/-- **The two paths agree, and return the normalised output rows, exactly when** the outputs
have rows of the context's dimension, one for each image or one image for each batch, and the
offsets are `int`s. -/
theorem pathsAgree_iff (ctx : ImageEmbedding) (n : Nat) (batchSize : Int) (mid : List Nat)
    (width : Nat) : ctx.PathsAgree n batchSize mid width ↔
      n = 0 ∨ ctx.PathsFit n (ctx.callSize batchSize).toNat mid width := by
  constructor
  · intro h
    rcases Nat.eq_zero_or_pos n with hzero | hn
    · exact .inl hzero
    · exact .inr (fit_of_agree h hn)
  · intro h
    rcases Nat.eq_zero_or_pos n with rfl | hn
    · rintro m rows - paths images hlength hfiles
      have hpaths := congrArg List.length hfiles
      rw [List.length_map, List.length_map, hlength] at hpaths
      refine ⟨⟨.invalidArgument, none⟩, ctx, ctx, ?_, ?_, nofun⟩
      · rw [embedFiles, if_pos hpaths]
      · rw [embedBytes, if_pos hlength]
    · rcases h with hzero | hfit
      · omega
      · exact agree_of_fit hfit hn

/-- A vision model with a row for each of 50 patches. -/
def patches : ImageEmbedding := .create 768 (Nat.succ_pos 767) 0

/-- The second image gets a row of the first one. -/
theorem patches_not_agree : ¬patches.PathsAgree 2 0 [50] 768 := by
  intro h
  rcases (fit_of_agree h Nat.two_pos).alone with hp | hn | hb
  · cases hp
  · cases hn
  · cases hb

end ImageEmbedding

end LibEmbedding
