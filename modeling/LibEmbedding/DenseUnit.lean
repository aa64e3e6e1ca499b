import LibEmbedding.DenseLoops

/-!
# A model that shows the strides

Every row of its output is one at one place and zero elsewhere, so what a caller reads
tells the place it was read from.
-/

namespace LibEmbedding

open Foundation

/-- One at place `k`, zero elsewhere. -/
def unitRow (d k : Nat) : List ℚ := (List.range d).map fun i => if i = k then 1 else 0

/-- A root of zero and one. -/
def unitSqrt : ExactSqrt := ⟨id, rfl, rfl⟩

theorem length_unitRow : (unitRow d k).length = d := by simp [unitRow]

theorem getElem?_unitRow (hi : i < d) : (unitRow d k)[i]? = some (if i = k then 1 else 0) := by
  simp [unitRow, List.getElem?_range hi]

theorem sum_sq_unitRow (sum : ℚ) : (unitRow d k).foldl (fun sum x => sum + x * x) sum =
    sum + if k < d then 1 else 0 := by
  induction d with
  | zero => simp [unitRow]
  | succ d ih =>
    have happend : unitRow (d + 1) k = unitRow d k ++ [if d = k then 1 else 0] := by
      simp [unitRow, List.range_succ]
    rw [happend, List.foldl_append, ih]
    rcases Nat.lt_trichotomy k d with hlt | rfl | hgt
    · simp [hlt, hlt.ne', Nat.lt_succ_of_lt hlt]
    · simp
    · simp [hgt.ne, not_lt.mpr hgt.le, not_lt.mpr (Nat.succ_le_of_lt hgt)]

/-- A unit row is normalised already. -/
theorem normalize_unitRow (sqrt : ExactSqrt) (hk : k < d) :
    normalizeRow sqrt.sqrt (unitRow d k) = unitRow d k := by
  have hsmall : (1 : ℚ) / 10 ^ 12 < 1 := by norm_num
  have hinv : normalizeRow sqrt.sqrt (unitRow d k) = (unitRow d k).map (· * 1) := by
    simp only [normalizeRow, sum_sq_unitRow, if_pos hk, zero_add, sqrt.one, if_pos hsmall, div_one]
  simpa using hinv

theorem normalize_zeros (sqrt : ℚ → ℚ) :
    normalizeRow sqrt (List.replicate d 0) = List.replicate d 0 := by
  simp [normalizeRow]

theorem sum_rows (r : List ℚ) (hr : r.length = d) :
    (List.replicate m r).foldl (fun sum tok => sum.zipWith (· + ·) tok) (List.replicate d 0) =
      r.map ((m : ℚ) * ·) := by
  induction m with
  | zero => simp [← hr]
  | succ m ih =>
    rw [List.replicate_succ', List.foldl_append, ih]
    refine List.ext_getElem (by simp) fun i _ _ => ?_
    simp
    ring

/-- The mean of equal rows is the row. -/
theorem meanOf_replicate (r : List ℚ) (hr : r.length = d) (hm : 0 < m) :
    meanOf d (List.replicate m r) = r := by
  have hpos : (1 : ℚ) ≤ m := by exact_mod_cast hm
  have hlarge : (1 : ℚ) / 10 ^ 9 < m := lt_of_lt_of_le (by norm_num) hpos
  have hne : (m : ℚ) ≠ 0 := by linarith
  rw [meanOf, sum_rows r hr, List.length_replicate, scaleMean, if_pos hlarge, List.map_map]
  refine List.map_id'' (fun x => ?_) r
  show (m : ℚ) * x * (1 / m) = x
  field_simp

theorem meanOf_nil : meanOf d [] = List.replicate d 0 := by
  simp [meanOf, scaleMean]

namespace DenseConfig

variable {c : DenseConfig} {texts : List Bytes}

/-- The text has a vector that is not zero for some model: without a token, the mean of
its tokens is zero. -/
def Carries (c : DenseConfig) (text : Bytes) : Prop :=
  c.rank = .three → c.pooling = .mean → c.tokenizer.encode text ≠ []

instance (c : DenseConfig) (text : Bytes) : Decidable (c.Carries text) :=
  inferInstanceAs (Decidable (_ → _ → _))

/-- A text without tokens has the zero vector. -/
theorem vecOf_of_not_carries {hidden : Bytes → Nat → List ℚ} (h : ¬c.Carries text) :
    c.vecOf hidden text = List.replicate c.outDim 0 := by
  simp only [Carries, not_forall, not_not] at h
  obtain ⟨hrank, hmean, hnil⟩ := h
  simp only [vecOf, pooledRow, hrank, hmean, hnil, List.length_nil, List.range_zero, List.map_nil,
    meanOf_nil, normalize_zeros]

def unitTensor (shape : List Nat) (d k : Nat) : List ℚ :=
  (List.range shape.prod).flatMap fun _ => unitRow d k

theorem length_unitTensor (shape : List Nat) (d k : Nat) :
    (unitTensor shape d k).length = (shape ++ [d]).prod := by
  rw [unitTensor, length_flatMap fun _ _ => length_unitRow, List.length_range, List.prod_append,
    List.prod_singleton]

theorem row_unitTensor {shape : List Nat} (hi : i < shape.prod) :
    row d i (unitTensor shape d k) = unitRow d k :=
  row_flatMap (fun _ _ => length_unitRow) (List.getElem?_range hi)

def unitShape (c : DenseConfig) (batch : FlatBatch) : List Nat :=
  match c.rank with
  | .two => [batch.batch]
  | .three => [batch.batch, batch.seqLength]

def unitSession (c : DenseConfig) (k : Nat) : OnnxSession ℚ where
  selectOutput _ := 0
  run batch _ := .returned [⟨unitTensor (c.unitShape batch) c.outDim k,
    c.unitShape batch ++ [c.outDim], length_unitTensor ..⟩]

theorem unit_independent (c : DenseConfig) (k : Nat) :
    c.Independent (c.unitSession k) fun _ _ => unitRow c.outDim k := by
  refine ⟨fun _ _ => length_unitRow, fun texts => .inr ⟨_, [], rfl, ?_⟩⟩
  unfold RowsOf
  split
  · rename_i hrank
    refine ⟨by simp only [unitShape, hrank]; rfl, fun i text hi => ?_⟩
    have hi := (List.getElem?_eq_some_iff.mp hi).1
    exact row_unitTensor (by simpa [unitShape, hrank, flat] using hi)
  · rename_i hrank
    refine ⟨by simp only [unitShape, hrank]; rfl, fun i text s hi hs _ => ?_⟩
    have hi := (List.getElem?_eq_some_iff.mp hi).1
    have hbound := row_bound hi (c.seqLen texts)
    refine row_unitTensor ?_
    have hprod : (c.unitShape (c.flat texts)).prod = texts.length * c.seqLen texts := by
      simp [unitShape, hrank, flat]
    omega

/-- The unit model shows its place in every vector that can show one. -/
theorem vecOf_unit (hk : k < c.outDim) (text : Bytes) :
    c.vecOf (fun _ _ => unitRow c.outDim k) text =
      if c.Carries text then unitRow c.outDim k else List.replicate c.outDim 0 := by
  split
  · rename_i hcarries
    have hpooled : c.pooledRow (fun _ _ => unitRow c.outDim k) text = unitRow c.outDim k := by
      unfold pooledRow
      split
      · rename_i hrank hmean
        have hne := List.length_pos_iff.mpr (hcarries hrank hmean)
        rw [List.map_const', List.length_range]
        exact meanOf_replicate _ length_unitRow hne
      · rfl
    rw [vecOf, hpooled, normalize_unitRow c.sqrt hk]
  · exact vecOf_of_not_carries ‹_›

end DenseConfig

end LibEmbedding
