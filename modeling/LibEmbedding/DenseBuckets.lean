import LibEmbedding.DenseAgree
import LibEmbedding.LlamaBuckets
import LibEmbedding.RerankerTransparent

/-!
# Length buckets

Under `LENGTH_BUCKET` the texts come to their batches in the order of their lengths and each row
goes back to its text. A row is copied from the place where rows of `dim` would have it: with
longer rows that is some other place of the batch, and the order decides whose.
-/

namespace LibEmbedding

open Foundation

namespace DenseConfig

def bucketed (c : DenseConfig) : DenseConfig := { c with batchStrategy := .lengthBucket }

def fixed (c : DenseConfig) : DenseConfig := { c with batchStrategy := .fixed }

variable {c : DenseConfig} {session : OnnxSession ℚ} {hidden : Bytes → Nat → List ℚ}
  {texts : List Bytes}

/-- Both strategies stay in their buffers and fill the matrix with the same rows, for every
model whose output for a text does not depend on the other texts. -/
def SameRows (c : DenseConfig) (texts : List Bytes) (batchSize : Int) : Prop :=
  ∀ session hidden, c.Independent session hidden → ∀ data, data.length = texts.length * c.dim →
    ∃ out out', (c.bucketed.onnx session).onnxEmbed texts (c.callSize batchSize) data = .ok out ∧
      (c.fixed.onnx session).onnxEmbed texts (c.callSize batchSize) data = .ok out' ∧
      ∀ r r', out = .returned r → out' = .returned r' → r = r'

/-- Text `j` is in place `i` of batch `k`. -/
def Placed (c : DenseConfig) (texts : List Bytes) (batchSize : Int) (j k i : Nat) : Prop :=
  k < c.embedCount texts batchSize ∧
    (slice (c.embedSize batchSize).toNat (c.order texts) k)[i]? = some j

/-- The cell of `pooled_buf_` that place `t` of row `i` is copied from: the text of the batch it
belongs to and its place in the vector of that text. -/
def cellOf (c : DenseConfig) (batch : List Bytes) (i t : Nat) : Bytes × Nat :=
  (batch.getD ((i * c.dim + t) / c.outDim) [], (i * c.dim + t) % c.outDim)

/-- Two cells that no model tells apart: the same place for the same tokens, or both of texts
without a vector. -/
def SameCell (c : DenseConfig) (x y : Bytes × Nat) : Prop :=
  (¬c.Carries x.1 ∧ ¬c.Carries y.1) ∨
    (c.tokenizer.encode x.1 = c.tokenizer.encode y.1 ∧ x.2 = y.2)

/-- Each row is copied from the same cells under both strategies. -/
def SameCells (c : DenseConfig) (texts : List Bytes) (batchSize : Int) : Prop :=
  ∀ j k i k' i', c.bucketed.Placed texts batchSize j k i → c.fixed.Placed texts batchSize j k' i' →
    ∀ t < c.dim, c.SameCell (c.cellOf (c.bucketed.embedBatchAt texts batchSize k) i t)
      (c.cellOf (c.fixed.embedBatchAt texts batchSize k') i' t)

-- ---------------------------------------------------------------------------
-- What a session sees
-- ---------------------------------------------------------------------------

theorem flat_congr {texts' : List Bytes}
    (h : texts.map c.tokenizer.encode = texts'.map c.tokenizer.encode) :
    c.flat texts = c.flat texts' := by
  have hlen : texts.length = texts'.length := by simpa using congrArg List.length h
  simp only [flat, seqLen, TokenizerWrapper.encodeBatch_congr h, hlen]

/-- A text with the tokens. -/
noncomputable def textOf (c : DenseConfig) (tokens : List Int) : Bytes :=
  open Classical in if h : ∃ text, c.tokenizer.encode text = tokens then h.choose else []

theorem encode_textOf (c : DenseConfig) (text : Bytes) :
    c.tokenizer.encode (c.textOf (c.tokenizer.encode text)) = c.tokenizer.encode text := by
  have h : ∃ other, c.tokenizer.encode other = c.tokenizer.encode text := ⟨text, rfl⟩
  rw [textOf, dif_pos h]
  exact h.choose_spec

/-- A session sees the tokens only, so the output for a text is a function of them. -/
theorem Independent.factor (h : c.Independent session hidden) :
    c.Independent session fun text => hidden (c.textOf (c.tokenizer.encode text)) := by
  refine ⟨fun text => h.width _, fun texts => ?_⟩
  let others := texts.map fun text => c.textOf (c.tokenizer.encode text)
  have htokens : others.map c.tokenizer.encode = texts.map c.tokenizer.encode := by
    rw [List.map_map]
    exact List.map_congr_left fun text _ => c.encode_textOf text
  have hflat : c.flat others = c.flat texts := flat_congr htokens
  have hlen : others.length = texts.length := List.length_map _
  have hseq : c.seqLen others = c.seqLen texts := congrArg FlatBatch.seqLength hflat
  have hat : ∀ (i : Nat) (text : Bytes), texts[i]? = some text →
      others[i]? = some (c.textOf (c.tokenizer.encode text)) := by
    intro i text hi
    rw [List.getElem?_map, hi, Option.map_some]
  have hrun := h.run others
  rw [hflat] at hrun
  refine hrun.imp_right ?_
  rintro ⟨output, rest, hreturned, hrows⟩
  refine ⟨output, rest, hreturned, ?_⟩
  unfold RowsOf at hrows ⊢
  rw [hlen, hseq] at hrows
  split at hrows
  · exact ⟨hrows.1, fun i text hi => hrows.2 i _ (hat i text hi)⟩
  · refine ⟨hrows.1, fun i text s hi hs hread => hrows.2 i _ s (hat i text hi) hs ?_⟩
    rwa [c.encode_textOf]

-- ---------------------------------------------------------------------------
-- Cells
-- ---------------------------------------------------------------------------

/-- What the model has in a cell. -/
def cell (c : DenseConfig) (hidden : Bytes → Nat → List ℚ) (x : Bytes × Nat) : Option ℚ :=
  (c.vecOf hidden x.1)[x.2]?

theorem getElem?_copied (h : c.Independent session hidden) {batch : List Bytes}
    (hdim : c.dim ≤ c.outDim) (hi : i < batch.length) (ht : t < c.dim) :
    (c.copied hidden batch i)[t]? = c.cell hidden (c.cellOf batch i t) := by
  have hwide : 0 < c.outDim := by omega
  have hplace : i * c.dim + t < batch.length * c.outDim := by
    have hbound := row_bound hi c.dim
    have hrows := Nat.mul_le_mul_left batch.length hdim
    omega
  have hrow : (i * c.dim + t) / c.outDim < batch.length :=
    (Nat.div_lt_iff_lt_mul hwide).mpr hplace
  have hread := getElem?_pooledOf h (List.getElem?_eq_getElem hrow)
    (Nat.mod_lt (i * c.dim + t) hwide)
  rw [Nat.div_add_mod'] at hread
  rw [copied, getElem?_row, if_pos ht, hread, cell, cellOf, List.getD_eq_getElem?_getD,
    List.getElem?_eq_getElem hrow, Option.getD_some]

theorem length_copied (h : c.Independent session hidden) {batch : List Bytes}
    (hdim : c.dim ≤ c.outDim) (hi : i < batch.length) :
    (c.copied hidden batch i).length = c.dim := by
  have hbound := row_bound hi c.dim
  have hrows := Nat.mul_le_mul_left batch.length hdim
  rw [copied, row, List.length_take, List.length_drop, length_pooledOf h]
  omega

/-- Cells that no model tells apart have the same value for a model of the tokens. -/
theorem cell_eq_of_same {f : List Int → Nat → List ℚ} {x y : Bytes × Nat} (h : c.SameCell x y)
    (hplaces : x.2 < c.outDim ∧ y.2 < c.outDim) :
    c.cell (fun text => f (c.tokenizer.encode text)) x =
      c.cell (fun text => f (c.tokenizer.encode text)) y := by
  unfold cell
  rcases h with ⟨hx, hy⟩ | ⟨htokens, hplace⟩
  · rw [vecOf_of_not_carries hx, vecOf_of_not_carries hy, List.getElem?_replicate,
      List.getElem?_replicate, if_pos hplaces.1, if_pos hplaces.2]
  · simp only [vecOf, pooledRow, htokens, hplace]

theorem copied_congr {f : List Int → Nat → List ℚ}
    (h : c.Independent session fun text => f (c.tokenizer.encode text)) (hdim : c.dim ≤ c.outDim)
    {batch batch' : List Bytes} (hi : i < batch.length) (hi' : i' < batch'.length)
    (hcells : ∀ t < c.dim, c.SameCell (c.cellOf batch i t) (c.cellOf batch' i' t)) :
    c.copied (fun text => f (c.tokenizer.encode text)) batch i =
      c.copied (fun text => f (c.tokenizer.encode text)) batch' i' := by
  apply List.ext_getElem?
  intro t
  by_cases ht : t < c.dim
  · have hwide : 0 < c.outDim := by omega
    rw [getElem?_copied h hdim hi ht, getElem?_copied h hdim hi' ht]
    exact cell_eq_of_same (hcells t ht) ⟨Nat.mod_lt _ hwide, Nat.mod_lt _ hwide⟩
  · have hlen := length_copied h hdim hi
    have hlen' := length_copied h hdim hi'
    rw [List.getElem?_eq_none (by omega), List.getElem?_eq_none (by omega)]

theorem sameRows_of_cells {batchSize : Int} (hb : c.bucketed.EmbedInBounds texts batchSize)
    (hf : c.fixed.EmbedInBounds texts batchSize) (hcells : c.SameCells texts batchSize) :
    c.SameRows texts batchSize := by
  intro session hidden h data hdata
  have hfactor := h.factor
  have hbucketed : c.bucketed.Independent session _ := ⟨hfactor.width, hfactor.run⟩
  have hfixed : c.fixed.Independent session _ := ⟨hfactor.width, hfactor.run⟩
  rcases onnxEmbed_total hbucketed hb hdata with hthrew | ⟨filled, hembed, hlen, hrows⟩
  · rcases onnxEmbed_total hfixed hf hdata with hthrew' | ⟨filled', hembed', -⟩
    · exact ⟨_, _, hthrew, hthrew', nofun⟩
    · exact ⟨_, _, hthrew, hembed', nofun⟩
  · rcases onnxEmbed_total hfixed hf hdata with hthrew' | ⟨filled', hembed', hlen', hrows'⟩
    · exact ⟨_, _, hembed, hthrew', nofun⟩
    refine ⟨_, _, hembed, hembed', ?_⟩
    rintro _ _ ⟨⟩ ⟨⟩
    refine congrArg (Prod.mk _) (ext_rows hlen hlen' fun j hj => ?_)
    obtain ⟨k, i, hk, hslice, hat⟩ := mem_embedBatch c.bucketed batchSize hj
    obtain ⟨k', i', hk', hslice', hat'⟩ := mem_embedBatch c.fixed batchSize hj
    have hwidth : c.dim ≤ c.outDim := hb.width (by omega)
    have hcopied := copied_congr (f := fun tokens => hidden (c.textOf tokens)) hfactor hwidth
      (List.getElem?_eq_some_iff.mp hat).1 (List.getElem?_eq_some_iff.mp hat').1
      (hcells j k i k' i' ⟨hk, hslice⟩ ⟨hk', hslice'⟩)
    exact (hrows k hk i j hslice).trans (hcopied.trans (hrows' k' hk' i' j hslice').symm)

-- ---------------------------------------------------------------------------
-- A model that shows whose row it is
-- ---------------------------------------------------------------------------

/-- The unit row for the given tokens, zero for all others. -/
def markRow (c : DenseConfig) (tokens : List Int) (k : Nat) (seen : List Int) : List ℚ :=
  if seen = tokens then unitRow c.outDim k else List.replicate c.outDim 0

theorem length_markRow (c : DenseConfig) (tokens : List Int) (k : Nat) (seen : List Int) :
    (c.markRow tokens k seen).length = c.outDim := by
  unfold markRow
  split
  · exact length_unitRow
  · exact List.length_replicate

/-- The rows an output has for a text. -/
def rowsPerText (c : DenseConfig) (batch : FlatBatch) : Nat :=
  match c.rank with
  | .two => 1
  | .three => batch.seqLength

def markTensor (c : DenseConfig) (tokens : List Int) (k : Nat) (batch : FlatBatch) : List ℚ :=
  (List.range (c.unitShape batch).prod).flatMap fun p =>
    c.markRow tokens k (Reranker.tokensAt batch (p / c.rowsPerText batch))

theorem length_markTensor (c : DenseConfig) (tokens : List Int) (k : Nat) (batch : FlatBatch) :
    (c.markTensor tokens k batch).length = (c.unitShape batch ++ [c.outDim]).prod := by
  rw [markTensor, length_flatMap fun _ _ => length_markRow .., List.length_range, List.prod_append,
    List.prod_singleton]

def markSession (c : DenseConfig) (tokens : List Int) (k : Nat) : OnnxSession ℚ where
  selectOutput _ := 0
  run batch _ := .returned [⟨c.markTensor tokens k batch, c.unitShape batch ++ [c.outDim],
    length_markTensor ..⟩]

def marked (c : DenseConfig) (tokens : List Int) (k : Nat) (text : Bytes) (_ : Nat) : List ℚ :=
  c.markRow tokens k (c.tokenizer.encode text)

theorem row_markTensor {tokens : List Int} {p : Nat} (hp : p < (c.unitShape (c.flat texts)).prod)
    (hi : texts[p / c.rowsPerText (c.flat texts)]? = some text) :
    row c.outDim p (c.markTensor tokens k (c.flat texts)) =
      c.markRow tokens k (c.tokenizer.encode text) := by
  have htokens : Reranker.tokensAt (c.flat texts) (p / c.rowsPerText (c.flat texts)) =
      c.tokenizer.encode text := Reranker.tokensAt_pairBatch hi
  rw [markTensor, row_flatMap (fun _ _ => length_markRow ..) (List.getElem?_range hp), htokens]

theorem mark_independent (c : DenseConfig) (tokens : List Int) (k : Nat) :
    c.Independent (c.markSession tokens k) (c.marked tokens k) := by
  refine ⟨fun text _ => length_markRow .., fun texts => .inr ⟨_, [], rfl, ?_⟩⟩
  unfold RowsOf
  split
  · rename_i hrank
    refine ⟨by simp only [unitShape, hrank]; rfl, fun i text hi => ?_⟩
    have hper : c.rowsPerText (c.flat texts) = 1 := by simp only [rowsPerText, hrank]
    have hlt := (List.getElem?_eq_some_iff.mp hi).1
    refine row_markTensor ?_ (by rwa [hper, Nat.div_one])
    simpa [unitShape, hrank, flat] using hlt
  · rename_i hrank
    refine ⟨by simp only [unitShape, hrank]; rfl, fun i text s hi hs _ => ?_⟩
    have hper : c.rowsPerText (c.flat texts) = c.seqLen texts := by
      simp only [rowsPerText, hrank]
      rfl
    have hlt := (List.getElem?_eq_some_iff.mp hi).1
    have hbound := row_bound hlt (c.seqLen texts)
    refine row_markTensor ?_ (by rwa [hper, row_of_place hs])
    have hprod : (c.unitShape (c.flat texts)).prod = texts.length * c.seqLen texts := by
      simp [unitShape, hrank, flat]
    omega

/-- The mean of zero rows is zero, also of none. -/
theorem meanOf_zeros (d m : Nat) :
    meanOf d (List.replicate m (List.replicate d 0)) = List.replicate d 0 := by
  rcases Nat.eq_zero_or_pos m with rfl | hm
  · exact meanOf_nil
  · exact meanOf_replicate _ List.length_replicate hm

/-- The model shows its place in the vectors of its tokens. -/
theorem vecOf_marked {tokens : List Int} (hk : k < c.outDim) (text : Bytes) :
    c.vecOf (c.marked tokens k) text =
      if c.Carries text ∧ c.tokenizer.encode text = tokens then unitRow c.outDim k
      else List.replicate c.outDim 0 := by
  by_cases htokens : c.tokenizer.encode text = tokens
  · have hrow : c.marked tokens k text = fun _ => unitRow c.outDim k := by
      funext s
      rw [marked, markRow, if_pos htokens]
    have hunit : c.vecOf (c.marked tokens k) text =
        c.vecOf (fun _ _ => unitRow c.outDim k) text := by simp only [vecOf, pooledRow, hrow]
    rw [hunit, vecOf_unit hk]
    simp only [htokens, and_true]
  · have hrow : c.marked tokens k text = fun _ => List.replicate c.outDim 0 := by
      funext s
      rw [marked, markRow, if_neg htokens]
    rw [if_neg fun h => htokens h.2, vecOf, pooledRow, hrow]
    split
    · rw [List.map_const', meanOf_zeros, normalize_zeros]
    · exact normalize_zeros _

theorem cell_marked {tokens : List Int} {x : Bytes × Nat} (hk : k < c.outDim)
    (hx : x.2 < c.outDim) : c.cell (c.marked tokens k) x =
      some (if (c.Carries x.1 ∧ c.tokenizer.encode x.1 = tokens) ∧ x.2 = k then 1 else 0) := by
  rw [cell, vecOf_marked hk]
  by_cases hcarries : c.Carries x.1 ∧ c.tokenizer.encode x.1 = tokens
  · rw [if_pos hcarries, getElem?_unitRow hx]
    simp only [hcarries, true_and]
  · rw [if_neg hcarries, List.getElem?_replicate, if_pos hx, if_neg fun h => hcarries h.1]

/-- Cells that show no difference in any of these models show none in any other. -/
theorem sameCell_of_marked {x y : Bytes × Nat} (hx : x.2 < c.outDim) (hy : y.2 < c.outDim)
    (h : ∀ tokens, ∀ k < c.outDim, c.cell (c.marked tokens k) x = c.cell (c.marked tokens k) y) :
    c.SameCell x y := by
  by_cases hcarries : c.Carries x.1
  · have hplace := h (c.tokenizer.encode x.1) x.2 hx
    rw [cell_marked hx hx, cell_marked hx hy, if_pos ⟨⟨hcarries, rfl⟩, rfl⟩] at hplace
    split at hplace
    · rename_i hsame
      exact .inr ⟨hsame.1.2.symm, hsame.2.symm⟩
    · cases hplace
  · refine .inl ⟨hcarries, fun hcarries' => ?_⟩
    have hplace := h (c.tokenizer.encode y.1) y.2 hy
    rw [cell_marked hy hx, cell_marked hy hy, if_neg fun hsame => hcarries hsame.1.1,
      if_pos ⟨⟨hcarries', rfl⟩, rfl⟩] at hplace
    cases hplace

-- ---------------------------------------------------------------------------
-- What equal matrices show
-- ---------------------------------------------------------------------------

theorem inBounds_of_sameRows {batchSize : Int} (hsame : c.SameRows texts batchSize) :
    c.bucketed.EmbedInBounds texts batchSize ∧ c.fixed.EmbedInBounds texts batchSize := by
  obtain ⟨out, out', hembed, hembed', -⟩ := hsame _ _ (unit_independent c 0)
    (List.replicate (texts.length * c.dim) 0) List.length_replicate
  have hsession : ∀ batch i, ∃ outputs, (c.unitSession 0).run batch i = .returned outputs :=
    fun batch i => ⟨_, rfl⟩
  exact ⟨embedInBounds_of_ran hsession (unit_independent c.bucketed 0) hembed,
    embedInBounds_of_ran hsession (unit_independent c.fixed 0) hembed'⟩

theorem copied_of_sameRows {batchSize : Int} (hsame : c.SameRows texts batchSize)
    (hsession : ∀ batch i, ∃ outputs, session.run batch i = .returned outputs)
    (h : c.Independent session hidden) {j k i k' i' : Nat}
    (hplace : c.bucketed.Placed texts batchSize j k i)
    (hplace' : c.fixed.Placed texts batchSize j k' i') :
    c.copied hidden (c.bucketed.embedBatchAt texts batchSize k) i =
      c.copied hidden (c.fixed.embedBatchAt texts batchSize k') i' := by
  have hdata : (List.replicate (texts.length * c.dim) (0 : ℚ)).length = texts.length * c.dim :=
    List.length_replicate
  obtain ⟨out, out', hembed, hembed', hequal⟩ := hsame session hidden h _ hdata
  have hbucketed : c.bucketed.Independent session hidden := ⟨h.width, h.run⟩
  have hfixed : c.fixed.Independent session hidden := ⟨h.width, h.run⟩
  obtain ⟨filled, rfl, -, hrows⟩ := onnxEmbed_copies hsession hbucketed hdata hembed
  obtain ⟨filled', rfl, -, hrows'⟩ := onnxEmbed_copies hsession hfixed hdata hembed'
  cases hequal _ _ rfl rfl
  exact (hrows k hplace.1 i j hplace.2).symm.trans (hrows' k' hplace'.1 i' j hplace'.2)

theorem Placed.lt {batchSize : Int} {j k i : Nat} (h : c.Placed texts batchSize j k i) :
    i < (c.embedBatchAt texts batchSize k).length := by
  rw [embedBatchAt, length_batchAt]
  exact (List.getElem?_eq_some_iff.mp h.2).1

theorem sameCells_of_sameRows {batchSize : Int} (hsame : c.SameRows texts batchSize) :
    c.SameCells texts batchSize := by
  intro j k i k' i' hplace hplace' t ht
  have hpos : 0 < texts.length := by
    have hsize := c.bucketed.embedSize_pos batchSize
    exact (Nat.zero_le _).trans_lt (slice_start_lt (by omega) hplace.1)
  have hdim : c.dim ≤ c.outDim := (inBounds_of_sameRows hsame).1.width hpos
  have hwide : 0 < c.outDim := by omega
  refine sameCell_of_marked (Nat.mod_lt _ hwide) (Nat.mod_lt _ hwide) fun tokens p _ => ?_
  have hmark := mark_independent c tokens p
  have hcopied := copied_of_sameRows hsame (fun _ _ => ⟨_, rfl⟩) hmark hplace hplace'
  have hcell := congrArg (·[t]?) hcopied
  rwa [getElem?_copied hmark hdim hplace.lt ht, getElem?_copied hmark hdim hplace'.lt ht] at hcell

-- ---------------------------------------------------------------------------
-- Both backends
-- ---------------------------------------------------------------------------

theorem Placed.getElem? {batchSize : Int} {j k i : Nat} (h : c.Placed texts batchSize j k i) :
    (c.embedBatchAt texts batchSize k)[i]? = some (texts.getD j []) := by
  rw [embedBatchAt, batchAt, List.getElem?_map, h.2, Option.map_some]

/-- Rows as long as the matrix has them are copied from their own texts. -/
theorem sameCells_of_strides {batchSize : Int} (h : c.outDim = c.dim ∨ c.dim = 0) :
    c.SameCells texts batchSize := by
  intro j k i k' i' hplace hplace' t ht
  have hdim : c.outDim = c.dim := by omega
  have htext := hplace.getElem?
  have htext' := hplace'.getElem?
  refine .inr ⟨?_, ?_⟩
  · simp only [cellOf, hdim, row_of_place ht, List.getD_eq_getElem?_getD, htext, htext']
  · simp only [cellOf, hdim, Nat.mul_add_mod_self_right]

theorem sameRows_iff (c : DenseConfig) (texts : List Bytes) (batchSize : Int) :
    c.SameRows texts batchSize ↔
      (c.bucketed.EmbedInBounds texts batchSize ∧ c.fixed.EmbedInBounds texts batchSize) ∧
      c.SameCells texts batchSize := by
  constructor
  · intro h
    exact ⟨inBounds_of_sameRows h, sameCells_of_sameRows h⟩
  · rintro ⟨⟨hbucketed, hfixed⟩, hcells⟩
    exact sameRows_of_cells hbucketed hfixed hcells

/-- Where the strides are the same, the strategy leaves no trace in the matrix. -/
theorem sameRows_of_strides {batchSize : Int} (h : c.outDim = c.dim)
    (hbucketed : c.bucketed.EmbedInBounds texts batchSize)
    (hfixed : c.fixed.EmbedInBounds texts batchSize) : c.SameRows texts batchSize :=
  (sameRows_iff c texts batchSize).mpr ⟨⟨hbucketed, hfixed⟩, sameCells_of_strides (.inl h)⟩

/-- The texts in the order of their lengths get the vectors they get in their own order: from
every pool, and as the rows of the matrix. -/
structure BucketsAgree (c : DenseConfig) (texts : List Bytes) (batchSize : Int) : Prop where
  llama : 1 ≤ batchSize → ∀ p : LlamaPool, p.Opened → ∀ sorter vs,
    (p.embedBatchBucketed sorter texts batchSize).result = .ok vs ↔
      (p.embedBatch texts).result.map Prod.fst = .ok vs
  onnx : c.SameRows texts batchSize

/-- The pool always agrees; the matrix does exactly when all accesses are inside their buffers
in both orders and each row is copied from the same cells. -/
theorem buckets_agree_iff (c : DenseConfig) (texts : List Bytes) (batchSize : Int) :
    c.BucketsAgree texts batchSize ↔
      (c.bucketed.EmbedInBounds texts batchSize ∧ c.fixed.EmbedInBounds texts batchSize) ∧
      c.SameCells texts batchSize := by
  constructor
  · intro h
    exact (sameRows_iff c texts batchSize).mp h.onnx
  · intro h
    refine ⟨fun hb p hp sorter vs => ?_, (sameRows_iff c texts batchSize).mpr h⟩
    exact LlamaPool.bucketed_iff hp.uniform sorter hb texts vs

def narrowWordsConfig : DenseConfig :=
  { narrowConfig with tokenizer := Reranker.twoWordTokenizer }

/-- The shorter text comes second in its bucket, and its row is read from the first. -/
theorem narrow_buckets_disagree : ¬narrowWordsConfig.BucketsAgree [ascii "a", ascii "a b"] 2 := by
  rintro ⟨-, h⟩
  have hcells := sameCells_of_sameRows h 0 0 1 0 0 ⟨by decide +kernel, by decide +kernel⟩
    ⟨by decide +kernel, by decide +kernel⟩ 0 Nat.one_pos
  rcases hcells with ⟨hnot, -⟩ | ⟨htokens, -⟩
  · exact hnot nofun
  · exact absurd htokens (by decide +kernel)

end DenseConfig

end LibEmbedding
