import LibEmbedding.Foundation.Buffer

/-!
# Pooling and normalisation

`pooling.hpp` and `normalize.hpp`: from the output of a model to one unit vector for
each text. Numbers are the ones the floats stand for, and `sqrt` is the library's.
-/

namespace LibEmbedding

open Foundation

inductive Pooling where
  | cls
  | mean
  deriving DecidableEq, Repr

/-- An output that is pooled already is copied. -/
def copyPooled (tensor : List ℚ) (batch dim : Nat) (out : List ℚ) : Checked (List ℚ) := do
  let pooled ← readAt tensor 0 (batch * dim)
  writeAt out 0 pooled

def poolCls (tensor : List ℚ) (batch seqLen dim ndim : Nat) (out : List ℚ) : Checked (List ℚ) :=
  if ndim = 2 then copyPooled tensor batch dim out
  else
    forUpTo batch (fun out b => do
      let src ← readAt tensor (b * seqLen * dim) dim
      writeAt out (b * dim) src) out

/-- Adds token `s` to the sum and to the number of tokens, if the mask keeps it. -/
def addToken (rowTensor : List ℚ) (rowMask : List Int) (dim : Nat) (sum : List ℚ × ℚ) (s : Nat) :
    Checked (List ℚ × ℚ) := do
  let kept ← get rowMask s
  if kept = 0 then return sum
  let tok ← readAt rowTensor (s * dim) dim
  return (sum.1.zipWith (· + ·) tok, sum.2 + 1)

/-- `dst[d] *= inv` -/
def scaleMean (dst : List ℚ) (maskSum : ℚ) : List ℚ :=
  let inv := if 1 / 10 ^ 9 < maskSum then 1 / maskSum else 1
  dst.map (· * inv)

/-- One row of the mean pooling. -/
def meanRow (rowTensor : List ℚ) (rowMask : List Int) (dim seqLen : Nat) : Checked (List ℚ) := do
  let (dst, maskSum) ← forUpTo seqLen (addToken rowTensor rowMask dim) (List.replicate dim 0, 0)
  return scaleMean dst maskSum

def poolMean (tensor : List ℚ) (mask : List Int) (batch seqLen dim ndim : Nat) (out : List ℚ) :
    Checked (List ℚ) :=
  if ndim = 2 then copyPooled tensor batch dim out
  else
    forUpTo batch (fun out b => do
      let dst ← meanRow (tensor.drop (b * seqLen * dim)) (mask.drop (b * seqLen)) dim seqLen
      writeAt out (b * dim) dst) out

def normalizeRow (sqrt : ℚ → ℚ) (row : List ℚ) : List ℚ :=
  let normSq := row.foldl (fun sum x => sum + x * x) 0
  let norm := sqrt normSq
  let inv := if 1 / 10 ^ 12 < norm then 1 / norm else 0
  row.map (· * inv)

/-- The offset `i * dim` is an `int`. -/
def intOffset (i dim : Nat) : Checked Unit := ensure (FitsInt ((i : Int) * dim)) .overflow

def l2Normalize (sqrt : ℚ → ℚ) (vectors : List ℚ) (count dim : Nat) : Checked (List ℚ) :=
  forUpTo count (fun vectors i => do
    intOffset i dim
    let row ← readAt vectors (i * dim) dim
    writeAt vectors (i * dim) (normalizeRow sqrt row)) vectors

-- ---------------------------------------------------------------------------
-- What they compute
-- ---------------------------------------------------------------------------

/-- The mean of the kept rows. -/
def meanOf (dim : Nat) (rows : List (List ℚ)) : List ℚ :=
  scaleMean (rows.foldl (fun sum tok => sum.zipWith (· + ·) tok) (List.replicate dim 0)) rows.length

theorem length_foldl_add {rows : List (List ℚ)} (h : ∀ r ∈ rows, r.length = dim) {init : List ℚ}
    (hinit : init.length = dim) :
    (rows.foldl (fun sum tok => sum.zipWith (· + ·) tok) init).length = dim := by
  induction rows generalizing init with
  | nil => exact hinit
  | cons r rows ih =>
    refine ih (fun x hx => h x (List.mem_cons_of_mem r hx)) ?_
    rw [List.length_zipWith, hinit, h r List.mem_cons_self, Nat.min_self]

theorem length_meanOf {rows : List (List ℚ)} (h : ∀ r ∈ rows, r.length = dim) :
    (meanOf dim rows).length = dim := by
  rw [meanOf, scaleMean, List.length_map]
  exact length_foldl_add h List.length_replicate

theorem length_normalizeRow (sqrt : ℚ → ℚ) (row : List ℚ) :
    (normalizeRow sqrt row).length = row.length :=
  List.length_map ..

theorem copyPooled_eq {tensor out : List ℚ} {batch dim : Nat} (ht : tensor.length = batch * dim)
    (ho : out.length = batch * dim) : copyPooled tensor batch dim out = .ok tensor := by
  have hread : readAt tensor 0 (batch * dim) = .ok tensor :=
    readAt_ok.mpr ⟨by omega, by rw [List.drop_zero, List.take_of_length_le ht.le]⟩
  rw [copyPooled, hread, ok_bind]
  exact writeAt_ok.mpr ⟨by omega, by simp [ht, ho]⟩

theorem poolCls_copies {tensor out : List ℚ} {batch seqLen dim : Nat}
    (ht : tensor.length = batch * seqLen * dim) (ho : out.length = batch * dim)
    (hseq : 0 < seqLen ∨ dim = 0) : ∃ pooled, poolCls tensor batch seqLen dim 3 out = .ok pooled ∧
      pooled.length = batch * dim ∧
      ∀ b < batch, row dim b pooled = row dim (b * seqLen) tensor := by
  have hread : ∀ b < batch,
      readAt tensor (b * seqLen * dim) dim = .ok (row dim (b * seqLen) tensor) := by
    intro b hb
    rcases hseq with hseq | rfl
    · exact readAt_row ht (Nat.mul_lt_mul_of_pos_right hb hseq)
    · exact readAt_ok.mpr ⟨by simp, rfl⟩
  exact writeRows_total ho hread fun b hb => length_of_readAt (hread b hb)

/-- The rows the mask keeps among the first `n`. -/
def keptTokens (rowTensor : List ℚ) (rowMask : List Int) (dim n : Nat) : List (List ℚ) :=
  ((List.range n).filter fun s => rowMask.getD s 0 ≠ 0).map fun s => row dim s rowTensor

theorem addToken_sums {rowTensor : List ℚ} {rowMask : List Int} {dim n : Nat}
    (ht : n * dim ≤ rowTensor.length) (hm : n ≤ rowMask.length) :
    forUpTo n (addToken rowTensor rowMask dim) (List.replicate dim 0, 0) =
      .ok ((keptTokens rowTensor rowMask dim n).foldl (fun sum tok => sum.zipWith (· + ·) tok)
        (List.replicate dim 0), ((keptTokens rowTensor rowMask dim n).length : ℚ)) := by
  induction n with
  | zero => rfl
  | succ n ih =>
    have hbound : n * dim + dim = (n + 1) * dim := by ring
    have hget : get rowMask n = .ok (rowMask.getD n 0) := get_getD (by omega) 0
    have hread : readAt rowTensor (n * dim) dim = .ok (row dim n rowTensor) :=
      readAt_ok.mpr ⟨by omega, rfl⟩
    rw [forUpTo_succ, ih (by omega) (by omega), ok_bind]
    simp only [addToken, hget, ok_bind, keptTokens, List.range_succ, List.filter_append]
    by_cases hkept : rowMask.getD n 0 = 0
    · rw [if_pos hkept, List.filter_cons_of_neg (by simpa using hkept), List.filter_nil,
        List.append_nil]
      rfl
    · rw [if_neg hkept, List.filter_cons_of_pos (by simpa using hkept), List.filter_nil,
        List.map_append, List.foldl_append, hread, ok_bind, List.length_append]
      simp [pure, Except.pure]

theorem length_of_mem_keptTokens {rowTensor : List ℚ} {rowMask : List Int} {dim n : Nat}
    (ht : n * dim ≤ rowTensor.length) : ∀ r ∈ keptTokens rowTensor rowMask dim n, r.length = dim := by
  intro r hr
  obtain ⟨s, hs, rfl⟩ := List.mem_map.mp hr
  have hs : s < n := List.mem_range.mp (List.mem_filter.mp hs).1
  have := row_bound hs dim
  simp only [row, List.length_take, List.length_drop]
  omega

theorem poolMean_averages {tensor out : List ℚ} {mask : List Int} {batch seqLen dim : Nat}
    (ht : tensor.length = batch * seqLen * dim) (hm : mask.length = batch * seqLen)
    (ho : out.length = batch * dim) : ∃ pooled,
      poolMean tensor mask batch seqLen dim 3 out = .ok pooled ∧ pooled.length = batch * dim ∧
      ∀ b < batch, row dim b pooled = meanOf dim (keptTokens (tensor.drop (b * seqLen * dim))
        (mask.drop (b * seqLen)) dim seqLen) := by
  have hroom : ∀ b < batch, seqLen * dim ≤ (tensor.drop (b * seqLen * dim)).length := by
    intro b hb
    have hle := Nat.mul_le_mul_right dim (row_bound hb seqLen)
    rw [Nat.add_mul] at hle
    rw [List.length_drop]
    omega
  have hmask : ∀ b < batch, seqLen ≤ (mask.drop (b * seqLen)).length := by
    intro b hb
    have hle := row_bound hb seqLen
    rw [List.length_drop]
    omega
  refine writeRows_total ho (fun b hb => ?_)
    fun b hb => length_meanOf (length_of_mem_keptTokens (hroom b hb))
  rw [meanRow, addToken_sums (hroom b hb) (hmask b hb), ok_bind]
  rfl

/-- The first `count` rows of a buffer of at least as many are normalised in place. -/
theorem l2Normalize_rows (sqrt : ℚ → ℚ) {vectors : List ℚ} {count dim : Nat}
    (hlen : vectors.length = m * dim) (hcount : count ≤ m)
    (hfits : FitsInt (((count - 1 : Nat) : Int) * dim)) :
    ∃ out, l2Normalize sqrt vectors count dim = .ok out ∧ out.length = m * dim ∧
      ∀ i < count, row dim i out = normalizeRow sqrt (row dim i vectors) := by
  have hoffset : ∀ i < count, intOffset i dim = .ok () := by
    intro i hi
    refine ensure_pos ⟨?_, le_trans ?_ hfits.2⟩
    · have : intMin ≤ 0 := by decide
      have : 0 ≤ (i : Int) * dim := by positivity
      omega
    · exact mul_le_mul_of_nonneg_right (by omega) (by positivity)
  obtain ⟨out, hmap, hout, hrows, -⟩ := mapRows_total hlen hcount
    (g := normalizeRow sqrt) fun r hr => (length_normalizeRow sqrt r).trans hr
  refine ⟨out, ?_, hout, hrows⟩
  rw [← hmap]
  exact forUpTo_congr fun i hi s => by rw [hoffset i hi, ok_bind]

theorem l2Normalize_normalizes (sqrt : ℚ → ℚ) {vectors : List ℚ} {count dim : Nat}
    (hlen : vectors.length = count * dim) (hfits : FitsInt (((count - 1 : Nat) : Int) * dim)) :
    ∃ out, l2Normalize sqrt vectors count dim = .ok out ∧ out.length = count * dim ∧
      ∀ i < count, row dim i out = normalizeRow sqrt (row dim i vectors) :=
  l2Normalize_rows sqrt hlen le_rfl hfits

/-- The first row of a longer buffer is normalised in place. -/
theorem l2Normalize_first (sqrt : ℚ → ℚ) {buf : List ℚ} {dim : Nat} (hroom : dim ≤ buf.length) :
    ∃ out, l2Normalize sqrt buf 1 dim = .ok out ∧ out.length = buf.length ∧
      row dim 0 out = normalizeRow sqrt (row dim 0 buf) := by
  have hfits : FitsInt (((0 : Nat) : Int) * dim) := by
    rw [Nat.cast_zero, zero_mul]
    decide
  have hoffset : intOffset 0 dim = .ok () := ensure_pos hfits
  have hread : readAt buf (0 * dim) dim = .ok (row dim 0 buf) := readAt_ok.mpr ⟨by omega, rfl⟩
  have hlen : (normalizeRow sqrt (row dim 0 buf)).length = dim :=
    (length_normalizeRow ..).trans (length_of_readAt hread)
  obtain ⟨out, hwrite⟩ : ∃ out, writeAt buf (0 * dim) (normalizeRow sqrt (row dim 0 buf)) = .ok out :=
    ⟨_, writeAt_ok.mpr ⟨by omega, rfl⟩⟩
  refine ⟨out, ?_, length_of_writeAt hwrite, row_of_writeAt hwrite hlen⟩
  simp only [l2Normalize, forUpTo_succ, forUpTo_zero, ok_bind, hoffset, hread, hwrite]

/-- The first token of every text has to exist. -/
theorem poolCls_readable {tensor out : List ℚ} {batch seqLen dim : Nat}
    (ht : tensor.length = batch * seqLen * dim) (hb : 0 < batch)
    (h : poolCls tensor batch seqLen dim 3 out = .ok pooled) : 0 < seqLen ∨ dim = 0 := by
  obtain ⟨s, t, -, hstep⟩ := forUpTo_ran h hb
  obtain ⟨src, hread, -⟩ := bind_ok.mp hstep
  have hbound := (readAt_ok.mp hread).1
  rw [ht] at hbound
  rcases Nat.eq_zero_or_pos seqLen with rfl | hpos
  · simp at hbound
    exact .inr hbound
  · exact .inl hpos

theorem l2Normalize_fits {sqrt : ℚ → ℚ} {vectors : List ℚ} {count dim : Nat} (hc : 0 < count)
    (h : l2Normalize sqrt vectors count dim = .ok out) :
    FitsInt (((count - 1 : Nat) : Int) * dim) := by
  obtain ⟨s, t, -, hstep⟩ := forUpTo_ran h (Nat.sub_one_lt_of_lt hc)
  obtain ⟨u, hoffset, -⟩ := bind_ok.mp hstep
  exact ensure_ok.mp hoffset

theorem length_of_l2Normalize {sqrt : ℚ → ℚ} {vectors : List ℚ} {count dim : Nat}
    (h : l2Normalize sqrt vectors count dim = .ok out) : out.length = vectors.length := by
  refine forUpTo_invariant (fun _ (s : List ℚ) => s.length = vectors.length) rfl ?_ h
  rintro i s t hi hs hstep
  simp only [bind_ok] at hstep
  obtain ⟨-, -, r, -, hwrite⟩ := hstep
  exact (length_of_writeAt hwrite).trans hs

end LibEmbedding
