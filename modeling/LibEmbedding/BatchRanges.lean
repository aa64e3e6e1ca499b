import LibEmbedding.DenseLoops

/-!
# What the batches cover

The public calls replace a nonpositive `batch_size` by that of their context, so that
`batch_count` divides by a positive number. The sum that it divides has no such guard.
-/

namespace LibEmbedding

open Foundation

/-- The batch size of a call, as `embed` hands it to `batch_count`. -/
def effectiveBatch (strategy : BatchStrategy) (ctxBatch batchSize : Int) : Int :=
  if strategy = .sequential then 1 else if batchSize ≤ 0 then ctxBatch else batchSize

/-- The ranges a loop over the batches goes through. -/
def batchRanges (total batchSize : Int) : Checked (List BatchRange) := do
  let numBatches ← batchCount total batchSize
  (List.range numBatches.toNat).mapM fun (bi : Nat) => getBatch bi total batchSize

/-- The rows that the loop of `embed` writes, each with the text it is for. -/
def rowsWritten (texts : List Bytes) (indices : List Nat) (batchSize : Int) :
    Checked (List (Nat × Bytes)) := do
  let numBatches ← batchCount texts.length batchSize
  let batches ← (List.range numBatches.toNat).mapM fun (bi : Nat) => do
    let range ← getBatch bi texts.length batchSize
    let start := range.start.toNat
    let bsz := (range.stop - range.start).toNat
    let batch ← OnnxEmbedder.batchTexts texts indices start bsz
    let rows ← (List.range' start bsz).mapM (get indices)
    return rows.zip batch
  return batches.flatten

/-- Ranges that are not empty, each from where the last one stopped. -/
def Consecutive (start total : Int) : List BatchRange → Prop
  | [] => start = total
  | range :: ranges =>
    range.start = start ∧ start < range.stop ∧ Consecutive range.stop total ranges

/-- The batches cut the items into consecutive ranges, and the loop writes the row of each
text once, whatever the order it goes through the texts in. -/
structure Partitions (total : Nat) (batchSize : Int) : Prop where
  ranges : ∃ ranges, batchRanges total batchSize = .ok ranges ∧ Consecutive 0 total ranges
  rows : ∀ texts : List Bytes, texts.length = total → ∀ indices : List Nat,
    indices.Perm (List.range total) →
      rowsWritten texts indices batchSize = .ok (indices.map fun j => (j, texts.getD j []))

theorem effectiveBatch_pos {ctxBatch : Int} (hctx : 0 < ctxBatch) (strategy : BatchStrategy)
    (batchSize : Int) : 0 < effectiveBatch strategy ctxBatch batchSize := by
  unfold effectiveBatch
  split
  · exact Int.one_pos
  · split
    · exact hctx
    · omega

-- ---------------------------------------------------------------------------
-- The ranges
-- ---------------------------------------------------------------------------

/-- The range of batch `k`. -/
def rangeAt (total b k : Nat) : BatchRange := ⟨k * b, min (k * b + b) total⟩

theorem batchRanges_eq {total b : Nat} (hb : 0 < b) (hfits : (total : Int) + b ≤ intMax) :
    batchRanges total b = .ok ((List.range (sliceCount b total)).map (rangeAt total b)) := by
  unfold batchRanges
  rw [(batchCount_slices hb).mpr ⟨hfits, rfl⟩, ok_bind, Int.toNat_natCast]
  refine mapM_eq fun k hk => ?_
  have hlt : (k : Int) < ((total : Int) + b - 1) / b := by
    rw [← sliceCount_cast hb]
    exact_mod_cast List.mem_range.mp hk
  exact (getBatch_total (by omega) hfits (Int.natCast_nonneg k) hlt).1

/-- The batches from `k` on start where those before it stop. -/
theorem consecutive_from {total b : Nat} (hb : 0 < b) (n k : Nat)
    (hcount : k + n = sliceCount b total) :
    Consecutive ↑(min (k * b) total) total ((List.range' k n).map (rangeAt total b)) := by
  induction n generalizing k with
  | zero =>
    have hend := le_sliceCount_mul hb total
    rw [← hcount, Nat.add_zero] at hend
    show (↑(min (k * b) total) : Int) = total
    rw [Nat.min_eq_right hend]
  | succ n ih =>
    have hstart : k * b < total := slice_start_lt hb (by omega)
    have hrest := ih (k + 1) (by omega)
    have hstop : (↑(min ((k + 1) * b) total) : Int) = (rangeAt total b k).stop := by
      rw [Nat.succ_mul, rangeAt]
      push_cast
      rfl
    rw [hstop] at hrest
    rw [List.range'_succ, List.map_cons, Nat.min_eq_left hstart.le]
    refine ⟨by rw [rangeAt, Nat.cast_mul], ?_, hrest⟩
    show ((k * b : Nat) : Int) < min ((k : Int) * b + b) total
    push_cast
    omega

-- ---------------------------------------------------------------------------
-- The rows
-- ---------------------------------------------------------------------------

/-- A batch writes the rows of its slice of the order. -/
theorem batch_rows {texts : List Bytes} {indices : List Nat} {b k : Nat}
    (hperm : indices.Perm (List.range texts.length)) (hb : 0 < b)
    (hfits : (texts.length : Int) + b ≤ intMax) (hk : k < sliceCount b texts.length) :
    (do
      let range ← getBatch k texts.length b
      let start := range.start.toNat
      let bsz := (range.stop - range.start).toNat
      let batch ← OnnxEmbedder.batchTexts texts indices start bsz
      let rows ← (List.range' start bsz).mapM (get indices)
      return rows.zip batch : Checked (List (Nat × Bytes))) =
        .ok ((slice b indices k).map fun j => (j, texts.getD j [])) := by
  obtain ⟨range, hrange, hstart, hbsz⟩ := DenseConfig.getBatch_indices hperm hb hfits hk
  have hbatch := DenseConfig.batchTexts_slice (b := b) (k := k) (DenseConfig.indices_lt hperm)
  have hrows : (List.range' (k * b) (slice b indices k).length).mapM (get indices) =
      .ok ((slice b indices k).map id) :=
    mapM_range' fun i j hij => get_ok.mpr (getElem?_of_slice hij)
  simp only [hrange, ok_bind, hstart, hbsz, hbatch, hrows]
  rw [DenseConfig.batchAt, List.zip_map']
  rfl

theorem rowsWritten_eq {texts : List Bytes} {indices : List Nat} {b : Nat}
    (hperm : indices.Perm (List.range texts.length)) (hb : 0 < b)
    (hfits : (texts.length : Int) + b ≤ intMax) :
    rowsWritten texts indices b = .ok (indices.map fun j => (j, texts.getD j [])) := by
  have hlength : indices.length = texts.length := hperm.length_eq.trans List.length_range
  unfold rowsWritten
  rw [(batchCount_slices hb).mpr ⟨hfits, rfl⟩, ok_bind, Int.toNat_natCast,
    mapM_eq fun k hk => batch_rows hperm hb hfits (List.mem_range.mp hk), ok_bind]
  have hflat : ((List.range (sliceCount b texts.length)).map fun k =>
      (slice b indices k).map fun j => (j, texts.getD j [])).flatten =
        ((List.range (sliceCount b texts.length)).flatMap (slice b indices)).map
          fun j => (j, texts.getD j []) := by
    rw [List.map_flatMap, List.flatMap_def]
  rw [hflat, flatMap_slices, ← hlength, take_slices hb]
  rfl

/-- The batches of a call partition its items exactly when an `int` holds the number of
items and the batch size together. -/
theorem partitions_iff (total : Nat) (strategy : BatchStrategy) (ctxBatch batchSize : Int)
    (hctx : 0 < ctxBatch) :
    Partitions total (effectiveBatch strategy ctxBatch batchSize) ↔
      total + effectiveBatch strategy ctxBatch batchSize ≤ intMax := by
  have hpos := effectiveBatch_pos hctx strategy batchSize
  obtain ⟨b, hcast⟩ := Int.eq_ofNat_of_zero_le hpos.le
  rw [hcast] at hpos ⊢
  have hb : 0 < b := by omega
  constructor
  · rintro ⟨⟨ranges, hranges, -⟩, -⟩
    obtain ⟨count, hcount, -⟩ := bind_ok.mp hranges
    exact ((batchCount_slices hb).mp hcount).1
  · intro hfits
    refine ⟨⟨_, batchRanges_eq hb hfits, ?_⟩, ?_⟩
    · have hall := consecutive_from hb (sliceCount b total) 0 (Nat.zero_add _)
      rwa [Nat.zero_mul, Nat.zero_min, ← List.range_eq_range'] at hall
    · rintro texts rfl indices hperm
      exact rowsWritten_eq hperm hb hfits

/-- Five texts in batches of two. -/
theorem partitions_iff_twos : Partitions 5 (effectiveBatch .fixed 256 2) :=
  (partitions_iff 5 .fixed 256 2 (by decide)).mpr (by decide)

/-- With the largest batch size the sum leaves an `int` from two texts on. -/
theorem partitions_overflows : ¬∀ (total : Nat) (strategy : BatchStrategy)
    (ctxBatch batchSize : Int), 0 < ctxBatch → FitsInt total → FitsInt batchSize →
      Partitions total (effectiveBatch strategy ctxBatch batchSize) := by
  intro h
  obtain ⟨⟨ranges, hranges, -⟩, -⟩ := h 2 .fixed 256 intMax (by decide) (by decide) (by decide)
  have hfault : batchRanges 2 (effectiveBatch .fixed 256 intMax) = .error .overflow := by decide
  cases hranges.symm.trans hfault

end LibEmbedding
