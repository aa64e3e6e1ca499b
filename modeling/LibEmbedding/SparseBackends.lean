import LibEmbedding.OnnxSession
import LibEmbedding.SparsePruning
import Mathlib.Analysis.SpecialFunctions.Log.Basic

/-!
# The two sparse backends

What each backend makes of the logits of one batch: `lembed_sparse_text_embedding_embed`
after the session has run, and `SparseSession::embed_batch` after the graph has, followed
by the pruning both share. Only the second removes the special tokens. They agree on
exactly the batches where no special token reaches the result of the first.
-/

namespace LibEmbedding

open Foundation

variable {α : Type} [LinearOrder α]

-- ---------------------------------------------------------------------------
-- The two paths
-- ---------------------------------------------------------------------------

section Paths

variable [Zero α] (sorter : SortImpl) (activation : α → α)

def onnxPostprocess (output : Tensor α) (maskFlat : List Int) (bsz seqLen : Nat)
    (options : SparseOptions α) : Checked (List (SparseResult α)) := do
  let vocabSize ← if 3 ≤ output.shape.length then get output.shape 2 else get output.shape 1
  let sparseResults ←
    spladePostprocess activation output.data (some maskFlat) bsz seqLen vocabSize
  sparseResults.mapM (sparsePruneAndSort sorter options)

def dropSpecialTokens (specialIds : List Int) (r : SparseResult α) : SparseResult α :=
  r.filter fun t => t.index ∉ specialIds

/-- The results of `embed_batch`. -/
def ggufPool (specialIds : List Int) (logits : List α) (valid : List Int)
    (batch seqLen vocabSize : Nat) : Checked (List (SparseResult α)) :=
  if seqLen = 0 then .ok (List.replicate batch [])
  else
    (List.range batch).mapM fun b => do
      let begin := b * seqLen
      let r ← spladePool activation (logits.drop (begin * vocabSize)) vocabSize
        (some (valid.drop begin)) seqLen
      return dropSpecialTokens specialIds r

def ggufPostprocess (specialIds : List Int) (logits : List α) (valid : List Int)
    (batch seqLen vocabSize : Nat) (options : SparseOptions α) :
    Checked (List (SparseResult α)) := do
  let sparse ← ggufPool activation specialIds logits valid batch seqLen vocabSize
  sparse.mapM (sparsePruneAndSort sorter options)

end Paths

-- ---------------------------------------------------------------------------
-- Agreement
-- ---------------------------------------------------------------------------

/-- The logits of a batch, `[batch, seqLen, vocab]`, with its attention mask. -/
structure MlmBatch (α : Type) where
  batch : Nat
  seqLen : Nat
  vocab : Nat
  logits : List α
  mask : List Int
  sizedLogits : logits.length = batch * seqLen * vocab
  sizedMask : mask.length = batch * seqLen

def MlmBatch.output (m : MlmBatch α) : Tensor α :=
  ⟨m.logits, [m.batch, m.seqLen, m.vocab], by simp [m.sizedLogits, Nat.mul_assoc]⟩

/-- A full vector has no lighter term: another one of this weight could stand for it. -/
def CutTie (topK : Int) (sr : SparseResult α) (t : SparseTerm α) : Prop :=
  (sr.length : Int) = topK ∧ ∀ u ∈ sr, t.value ≤ u.value

/-- The same terms in the order of the format, up to ties. -/
structure AgreeUpToTies (options : SparseOptions α) (a b : SparseResult α) : Prop where
  weights : (a.map SparseTerm.value).Perm (b.map SparseTerm.value)
  left : ∀ t ∈ a, t ∉ b → CutTie options.topK a t
  right : ∀ t ∈ b, t ∉ a → CutTie options.topK b t
  orderedLeft : a.Pairwise (InOrder (formatOrder options.storageFormat))
  orderedRight : b.Pairwise (InOrder (formatOrder options.storageFormat))

section Survivors

variable [Zero α] (activation : α → α)

/-- The logits of document `b` that count. -/
def MlmBatch.rows (m : MlmBatch α) (b : Nat) : List (List α) :=
  keptRows (m.logits.drop (b * m.seqLen * m.vocab)) m.vocab (m.mask.drop (b * m.seqLen)) m.seqLen

/-- A weight that makes a term of the pruned vector. -/
def Survives (options : SparseOptions α) (w : α) : Prop := 0 < w ∧ options.minWeight ≤ w

instance (options : SparseOptions α) (w : α) : Decidable (Survives options w) :=
  inferInstanceAs (Decidable (_ ∧ _))

/-- Every special token that would survive in a document is cut off: at least `topK`
other terms are as heavy. -/
def SpecialsCut (specialIds : List Int) (options : SparseOptions α) (vocab : Nat)
    (rows : List (List α)) : Prop :=
  ∀ s < vocab, (s : Int) ∈ specialIds → Survives options (weight activation rows s) →
    0 < options.topK ∧ options.topK ≤ ((List.range vocab).filter fun (v : Nat) =>
      (v : Int) ∉ specialIds ∧ Survives options (weight activation rows v) ∧
        weight activation rows s ≤ weight activation rows v).length

instance (specialIds : List Int) (options : SparseOptions α) (vocab : Nat)
    (rows : List (List α)) : Decidable (SpecialsCut activation specialIds options vocab rows) :=
  inferInstanceAs (Decidable (∀ _ < _, _))

-- ---------------------------------------------------------------------------
-- One document
-- ---------------------------------------------------------------------------

/-- The terms of a document with a surviving weight. -/
def survivors (options : SparseOptions α) (vocab : Nat) (rows : List (List α)) : SparseResult α :=
  ((List.range vocab).filter fun v => Survives options (weight activation rows v)).map
    fun (v : Nat) => ⟨v, weight activation rows v⟩

theorem dropLight_pooled (options : SparseOptions α) (vocab : Nat) (rows : List (List α)) :
    dropLight options.minWeight (pooled activation vocab rows) =
      survivors activation options vocab rows := by
  unfold dropLight pooled survivors Survives
  split
  · rw [List.filter_map, List.filter_filter]
    congr 2
    funext v
    rw [Bool.eq_iff_iff]
    simp [and_comm]
  · rename_i hmin
    congr 1
    refine List.filter_congr fun v _ => decide_eq_decide.mpr ?_
    exact ⟨fun hw => ⟨hw, (not_lt.mp hmin).trans hw.le⟩, And.left⟩

theorem dropSpecialTokens_dropLight (specialIds : List Int) (minWeight : α) (sr : SparseResult α) :
    dropLight minWeight (dropSpecialTokens specialIds sr) =
      dropSpecialTokens specialIds (dropLight minWeight sr) := by
  unfold dropLight dropSpecialTokens
  split
  · rw [List.filter_filter, List.filter_filter]
    congr 1
    funext t
    exact Bool.and_comm _ _
  · rfl

theorem countFrom_survivors (specialIds : List Int) (options : SparseOptions α) (vocab : Nat)
    (rows : List (List α)) (w : α) :
    countFrom SparseTerm.value w
      (dropSpecialTokens specialIds (survivors activation options vocab rows)) =
    ((List.range vocab).filter fun (v : Nat) => (v : Int) ∉ specialIds ∧
      Survives options (weight activation rows v) ∧ w ≤ weight activation rows v).length := by
  rw [countFrom, List.countP_eq_length_filter, dropSpecialTokens, survivors, List.filter_map,
    List.filter_map, List.length_map, List.filter_filter, List.filter_filter]
  congr 2
  funext v
  rw [Bool.eq_iff_iff]
  simp only [Bool.and_eq_true, Function.comp, decide_eq_true_eq]
  tauto

/-- The special terms that survive. -/
def specialSurvivors (specialIds : List Int) (options : SparseOptions α) (vocab : Nat)
    (rows : List (List α)) : SparseResult α :=
  (survivors activation options vocab rows).filter fun t => t.index ∈ specialIds

theorem survivors_perm (specialIds : List Int) (options : SparseOptions α) (vocab : Nat)
    (rows : List (List α)) : (survivors activation options vocab rows).Perm
      (dropSpecialTokens specialIds (survivors activation options vocab rows) ++
        specialSurvivors activation specialIds options vocab rows) := by
  refine ((List.filter_append_perm (fun t : SparseTerm α => decide (t.index ∉ specialIds))
    _).symm.trans (List.Perm.of_eq ?_))
  congr 1
  exact List.filter_congr fun t _ => by simp

theorem mem_specialSurvivors {specialIds : List Int} {options : SparseOptions α} {vocab : Nat}
    {rows : List (List α)} {e : SparseTerm α} :
    e ∈ specialSurvivors activation specialIds options vocab rows ↔
      ∃ v : Nat, v < vocab ∧ (v : Int) ∈ specialIds ∧
        Survives options (weight activation rows v) ∧ ⟨v, weight activation rows v⟩ = e := by
  simp only [specialSurvivors, survivors, List.mem_filter, List.mem_map, List.mem_range,
    decide_eq_true_eq]
  constructor
  · rintro ⟨⟨v, ⟨hv, hsurvives⟩, rfl⟩, hspecial⟩
    exact ⟨v, hv, hspecial, hsurvives, rfl⟩
  · rintro ⟨v, hv, hspecial, hsurvives, rfl⟩
    exact ⟨⟨v, ⟨hv, hsurvives⟩, rfl⟩, hspecial⟩

theorem specialsCut_iff (specialIds : List Int) (options : SparseOptions α) (vocab : Nat)
    (rows : List (List α)) : SpecialsCut activation specialIds options vocab rows ↔
      ∀ e ∈ specialSurvivors activation specialIds options vocab rows, 0 < options.topK ∧
        options.topK ≤ countFrom SparseTerm.value e.value
          (dropSpecialTokens specialIds (survivors activation options vocab rows)) := by
  constructor
  · intro h e he
    obtain ⟨v, hv, hspecial, hsurvives, rfl⟩ := (mem_specialSurvivors activation).mp he
    rw [countFrom_survivors]
    exact h v hv hspecial hsurvives
  · intro h v hv hspecial hsurvives
    have hcut := h _ ((mem_specialSurvivors activation).mpr ⟨v, hv, hspecial, hsurvives, rfl⟩)
    rwa [countFrom_survivors] at hcut

omit [Zero α] in
theorem AgreeUpToTies.refl {options : SparseOptions α} {a : SparseResult α}
    (h : a.Pairwise (InOrder (formatOrder options.storageFormat))) : AgreeUpToTies options a a :=
  ⟨.refl _, fun _ ht hn => absurd ht hn, fun _ ht hn => absurd ht hn, h, h⟩

omit [Zero α] in
theorem countFrom_value (w : α) (sr : SparseResult α) :
    countFrom SparseTerm.value w sr = countFrom id w (sr.map SparseTerm.value) := by
  rw [countFrom, countFrom, List.countP_map]
  rfl

omit [Zero α] in
/-- Without a cut every extra term shows; with one, those that are no lighter than it. -/
theorem agree_iff_extra_cut {options : SparseOptions α} {all rest extra a b : SparseResult α}
    (hperm : all.Perm (rest ++ extra))
    (hA : Heaviest SparseTerm.value
      (if 0 < options.topK then options.topK.toNat else all.length) all a)
    (hB : Heaviest SparseTerm.value
      (if 0 < options.topK then options.topK.toNat else rest.length) rest b)
    (hordered : a.Pairwise (InOrder (formatOrder options.storageFormat)))
    (hordered' : b.Pairwise (InOrder (formatOrder options.storageFormat)))
    (hsame : extra = [] → a = b) : AgreeUpToTies options a b ↔
      ∀ e ∈ extra, 0 < options.topK ∧
        options.topK ≤ countFrom SparseTerm.value e.value rest := by
  have hlength := hperm.length_eq
  rw [List.length_append] at hlength
  constructor
  · intro h e he
    have hpos := List.length_pos_of_mem he
    have hweights := h.weights.length_eq
    rw [List.length_map, List.length_map, hA.length, hB.length] at hweights
    by_cases hk : 0 < options.topK
    · rw [if_pos hk] at hA hB
      have hcut := ((hA.of_perm hperm).count_eq_iff hB).mp (fun w => by
        rw [countFrom_value, countFrom_value, countFrom_perm id h.weights]) e he
      exact ⟨hk, by omega⟩
    · rw [if_neg hk, if_neg hk] at hweights
      omega
  · intro h
    by_cases hnone : extra = []
    · exact hsame hnone ▸ .refl hordered
    obtain ⟨e, he⟩ := List.exists_mem_of_ne_nil extra hnone
    have hk := (h e he).1
    rw [if_pos hk] at hA hB
    have hcut : ∀ e ∈ extra, options.topK.toNat ≤ countFrom SparseTerm.value e.value rest :=
      fun e he => by have := (h e he).2; omega
    have hcounts := ((hA.of_perm hperm).count_eq_iff hB).mpr hcut
    have htie : ∀ sr : SparseResult α, ∀ t, sr.length = options.topK.toNat ∧
        (∀ u ∈ sr, t.value ≤ u.value) → CutTie options.topK sr t := by
      rintro sr t ⟨hlen, hle⟩
      exact ⟨by omega, hle⟩
    have hle : ∀ w, countFrom SparseTerm.value w rest ≤ countFrom SparseTerm.value w all := by
      intro w
      have := countFrom_perm SparseTerm.value hperm w
      rw [countFrom_append] at this
      omega
    refine ⟨perm_of_countFrom fun w => by rw [← countFrom_value, ← countFrom_value, hcounts],
      fun t ht hnot => htie a t (hA.tie ?_), fun t ht hnot => htie b t (hB.tie ?_), hordered,
      hordered'⟩
    · -- An extra term is cut, and another one that `b` lacks is tied.
      rcases List.mem_append.mp (hperm.subset (hA.subset ht)) with hrest | hextra
      · by_contra hlt
        exact hnot (hB.mem_of_count_lt ((hle _).trans_lt (not_le.mp hlt)) hrest)
      · exact (hcut t hextra).trans (hle _)
    · have hmem : t ∈ all := hperm.symm.subset (List.mem_append_left _ (hB.subset ht))
      have hall : options.topK.toNat ≤ countFrom SparseTerm.value t.value all := by
        by_contra hlt
        exact hnot (hA.mem_of_count_lt (not_le.mp hlt) hmem)
      have ha := hA.count t.value
      have hb := hB.count t.value
      have hab := hcounts t.value
      omega

/-- The pruned vectors of a document with and without its special terms. -/
theorem agree_iff_specialsCut (sorter : SortImpl) (specialIds : List Int)
    (options : SparseOptions α) (vocab : Nat) (rows : List (List α)) {a b : SparseResult α}
    (ha : sparsePruneAndSort sorter options (pooled activation vocab rows) = .ok a)
    (hb : sparsePruneAndSort sorter options
      (dropSpecialTokens specialIds (pooled activation vocab rows)) = .ok b) :
    AgreeUpToTies options a b ↔ SpecialsCut activation specialIds options vocab rows := by
  have hall := dropLight_pooled activation options vocab rows
  have hrest := dropSpecialTokens_dropLight specialIds options.minWeight
    (pooled activation vocab rows)
  rw [hall] at hrest
  obtain ⟨a', ha', hheavyA, horderA⟩ := prune_spec sorter options (pooled activation vocab rows)
  cases ha.symm.trans ha'
  obtain ⟨b', hb', hheavyB, horderB⟩ := prune_spec sorter options
    (dropSpecialTokens specialIds (pooled activation vocab rows))
  cases hb.symm.trans hb'
  rw [keepCount, hall] at hheavyA
  rw [keepCount, hrest] at hheavyB
  have hperm := survivors_perm activation specialIds options vocab rows
  rw [specialsCut_iff]
  refine agree_iff_extra_cut hperm hheavyA hheavyB horderA horderB fun hnone => ?_
  -- Without special terms both prune the same vector.
  have hsame : dropSpecialTokens specialIds (survivors activation options vocab rows) =
      survivors activation options vocab rows := by
    refine List.filter_eq_self.mpr fun t ht => ?_
    have := List.filter_eq_nil_iff.mp hnone t ht
    simpa using this
  simp only [sparsePruneAndSort, hall, hrest, hsame] at ha hb
  exact Except.ok.inj (ha.symm.trans hb)

end Survivors

-- ---------------------------------------------------------------------------
-- The whole batch
-- ---------------------------------------------------------------------------

section Batch

variable [Zero α] (activation : α → α)

theorem MlmBatch.pool_eq (m : MlmBatch α) {b : Nat} (hb : b < m.batch) :
    spladePool activation (m.logits.drop (b * m.seqLen * m.vocab)) m.vocab
      (some (m.mask.drop (b * m.seqLen))) m.seqLen = .ok (pooled activation m.vocab (m.rows b)) := by
  have hrow := row_bound hb m.seqLen
  have hrow' := Nat.mul_le_mul_right m.vocab hrow
  rw [Nat.add_mul] at hrow'
  exact spladePool_eq activation (by rw [List.length_drop, m.sizedLogits]; omega)
    (by rw [List.length_drop, m.sizedMask]; omega)

theorem spladePostprocess_eq (m : MlmBatch α) :
    spladePostprocess activation m.logits (some m.mask) m.batch m.seqLen m.vocab =
      .ok ((List.range m.batch).map fun b => pooled activation m.vocab (m.rows b)) :=
  mapM_eq fun _ hb => m.pool_eq activation (List.mem_range.mp hb)

theorem ggufPool_eq (m : MlmBatch α) (specialIds : List Int) :
    ggufPool activation specialIds m.logits m.mask m.batch m.seqLen m.vocab =
      .ok ((List.range m.batch).map fun b =>
        dropSpecialTokens specialIds (pooled activation m.vocab (m.rows b))) := by
  unfold ggufPool
  by_cases hseq : m.seqLen = 0
  · have hpooled : ∀ b, pooled activation m.vocab (m.rows b) = [] := by
      intro b
      simp [MlmBatch.rows, hseq, keptRows, pooled, weight]
    simp [if_pos hseq, hpooled, dropSpecialTokens]
  · rw [if_neg hseq]
    refine mapM_eq fun b hb => ?_
    simp only [m.pool_eq activation (List.mem_range.mp hb), ok_bind]
    rfl

/-- Both paths succeed, and what decides whether their vectors agree. -/
theorem postprocess_spec (sorter : SortImpl) (specialIds : List Int) (options : SparseOptions α)
    (m : MlmBatch α) : ∃ a b,
      onnxPostprocess sorter activation m.output m.mask m.batch m.seqLen options = .ok a ∧
      ggufPostprocess sorter activation specialIds m.logits m.mask m.batch m.seqLen m.vocab
        options = .ok b ∧
      (List.Forall₂ (AgreeUpToTies options) a b ↔
        ∀ i < m.batch, SpecialsCut activation specialIds options m.vocab (m.rows i)) := by
  choose pruned hpruned using prune_spec sorter options
  let vectors := (List.range m.batch).map fun i => pooled activation m.vocab (m.rows i)
  let stripped := (List.range m.batch).map fun i =>
    dropSpecialTokens specialIds (pooled activation m.vocab (m.rows i))
  refine ⟨vectors.map pruned, stripped.map pruned, ?_, ?_, ?_⟩
  · have hvocab : get m.output.shape 2 = .ok m.vocab := rfl
    have hshape : 3 ≤ m.output.shape.length := le_rfl
    have hdata : m.output.data = m.logits := rfl
    simp only [onnxPostprocess, if_pos hshape, hvocab, hdata, ok_bind, spladePostprocess_eq]
    exact mapM_eq fun sr _ => (hpruned sr).1
  · simp only [ggufPostprocess, ggufPool_eq, ok_bind]
    exact mapM_eq fun sr _ => (hpruned sr).1
  · rw [List.map_map, List.map_map, List.forall₂_map_left_iff, List.forall₂_map_right_iff,
      List.forall₂_same]
    simp only [List.mem_range, Function.comp]
    refine forall₂_congr fun i _ => ?_
    exact agree_iff_specialsCut activation sorter specialIds options m.vocab (m.rows i)
      (hpruned _).1 (hpruned _).1

/-- The post-processing of both backends yields the same sparse vectors, in order and
up to ties. -/
def BackendsAgree (sorter : SortImpl) (specialIds : List Int) (options : SparseOptions α)
    (m : MlmBatch α) : Prop :=
  ∃ a b, onnxPostprocess sorter activation m.output m.mask m.batch m.seqLen options = .ok a ∧
    ggufPostprocess sorter activation specialIds m.logits m.mask m.batch m.seqLen m.vocab
      options = .ok b ∧ List.Forall₂ (AgreeUpToTies options) a b

theorem backends_agree_iff (sorter : SortImpl) (specialIds : List Int)
    (options : SparseOptions α) (m : MlmBatch α) :
    BackendsAgree activation sorter specialIds options m ↔
      ∀ i < m.batch, SpecialsCut activation specialIds options m.vocab (m.rows i) := by
  obtain ⟨a, b, ha, hb, hiff⟩ := postprocess_spec activation sorter specialIds options m
  rw [← hiff]
  constructor
  · rintro ⟨a', b', ha', hb', hagree⟩
    cases ha.symm.trans ha'
    cases hb.symm.trans hb'
    exact hagree
  · intro hagree
    exact ⟨a, b, ha, hb, hagree⟩

end Batch

/-- One document of one token, both entries of the vocabulary with the logit one. -/
def twoTermBatch : MlmBatch ℝ := ⟨1, 1, 2, [1, 1], [1], rfl, rfl⟩

theorem special_token_disagrees :
    ¬BackendsAgree (fun x => Real.log (1 + x)) insertionImpl [0] ⟨0, 0, 0⟩ twoTermBatch := by
  rintro ⟨a, b, ha, hb, hagree⟩
  obtain ⟨a', b', ha', hb', hiff⟩ :=
    postprocess_spec (fun x => Real.log (1 + x)) insertionImpl [0] ⟨0, 0, 0⟩ twoTermBatch
  cases ha.symm.trans ha'
  cases hb.symm.trans hb'
  have hrows : twoTermBatch.rows 0 = [[1, 1]] := rfl
  have hcut := hiff.mp hagree 0 Nat.one_pos 0 Nat.two_pos (by simp) (by
    have hlog : 0 < Real.log (1 + 1) := Real.log_pos (by norm_num)
    simp [hrows, weight, saturate, Survives, not_le.mpr (zero_lt_one' ℝ), hlog, hlog.le])
  exact absurd hcut.1 (lt_irrefl 0)

end LibEmbedding
