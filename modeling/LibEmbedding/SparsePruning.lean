import LibEmbedding.Foundation.Selection
import LibEmbedding.SparsePostprocess

/-!
# Pruning a sparse vector

`sparse_prune_and_sort` selects the heaviest of the terms that `min_weight` leaves, and orders
them afterwards. Which of several terms tied at the cut it keeps is up to the sorting, but not
to the storage format, and a pruned vector has nothing left to drop.
-/

namespace LibEmbedding

open Foundation

variable {α : Type} [LinearOrder α] [Zero α]

/-- How many of the terms that are not light the pruning keeps. -/
def keepCount (options : SparseOptions α) (sr : SparseResult α) : Nat :=
  if 0 < options.topK then options.topK.toNat else (dropLight options.minWeight sr).length

/-- A survivor of `min_weight`. -/
def HeavyEnough (minWeight : α) (t : SparseTerm α) : Prop := 0 < minWeight → minWeight ≤ t.value

instance (minWeight : α) (t : SparseTerm α) : Decidable (HeavyEnough minWeight t) :=
  inferInstanceAs (Decidable (_ → _))

/-- What pruning `sr` to `out` promises where no index of `sr` is repeated. -/
structure ExactTopK (sorter : SortImpl) (options : SparseOptions α) (sr out : SparseResult α) :
    Prop where
  runs : sparsePruneAndSort sorter options sr = .ok out
  pairs : ∀ t ∈ out, t ∈ sr
  distinct : (out.map SparseTerm.index).Nodup
  heavyEnough : 0 < options.minWeight → ∀ t ∈ out, options.minWeight ≤ t.value
  cut : 0 < options.topK →
    (out.length : Int) = min options.topK (sr.countP fun t => HeavyEnough options.minWeight t)
  uncut : options.topK ≤ 0 → ∀ t ∈ sr, HeavyEnough options.minWeight t → t ∈ out
  heaviest : ∀ t ∈ out, ∀ u ∈ sr, HeavyEnough options.minWeight u → u ∉ out → u.value ≤ t.value
  ascending : options.storageFormat = sparseFormatIndexOrder →
    out.Pairwise fun a b => a.index < b.index
  descending : options.storageFormat ≠ sparseFormatIndexOrder →
    out.Pairwise fun a b => b.value ≤ a.value
  anyFormat : ∀ storageFormat, ∃ other, sparsePruneAndSort sorter
    { options with storageFormat := storageFormat } sr = .ok other ∧ ∀ t, t ∈ other ↔ t ∈ out
  again : ∃ same, sparsePruneAndSort sorter options out = .ok same ∧ ∀ t, t ∈ same ↔ t ∈ out

-- ---------------------------------------------------------------------------
-- Selecting and ordering
-- ---------------------------------------------------------------------------

theorem dropLight_eq (minWeight : α) (sr : SparseResult α) :
    dropLight minWeight sr = sr.filter fun t => HeavyEnough minWeight t := by
  unfold dropLight HeavyEnough
  by_cases hmin : 0 < minWeight
  · simp [hmin]
  · simp [hmin]

theorem mem_dropLight {minWeight : α} {sr : SparseResult α} :
    t ∈ dropLight minWeight sr ↔ t ∈ sr ∧ HeavyEnough minWeight t := by
  simp [dropLight_eq]

theorem dropLight_eq_self {minWeight : α} {sr : SparseResult α}
    (h : ∀ t ∈ sr, HeavyEnough minWeight t) : dropLight minWeight sr = sr := by
  rw [dropLight_eq]
  exact List.filter_eq_self.mpr fun t ht => decide_eq_true (h t ht)

omit [Zero α] in
theorem keepTop_spec (sorter : SortImpl) (topK : Int) (sr : SparseResult α) :
    ∃ out, keepTop sorter topK sr = .ok out ∧
      Heaviest SparseTerm.value (if 0 < topK then topK.toNat else sr.length) sr out := by
  unfold keepTop
  by_cases hcut : 0 < topK ∧ topK < sr.length
  · obtain ⟨sorted, hsort, hperm, -, hle⟩ := sorter.partialSort_spec heavier topK.toNat sr
      (by omega) (.of_key_gt SparseTerm.value sr)
    refine ⟨sorted.take topK.toNat, by rw [if_pos hcut, hsort]; rfl, sorted.drop topK.toNat,
      by rwa [List.take_append_drop], ?_, fun a ha b hb => ?_⟩
    · rw [if_pos hcut.1, List.length_take, hperm.length_eq]
    · have := hle a ha b hb
      simpa [InOrder, heavier] using this
  · refine ⟨sr, if_neg hcut, [], by simp, ?_, by simp⟩
    split <;> omega

omit [Zero α] in
theorem sort_format_spec (sorter : SortImpl) (storageFormat : Int) (sr : SparseResult α) :
    ∃ out, sorter.sort (formatOrder storageFormat) sr = .ok out ∧ out.Perm sr ∧
      out.Pairwise (InOrder (formatOrder storageFormat)) := by
  have hweak : StrictWeak (formatOrder (α := α) storageFormat) sr := by
    unfold formatOrder
    split
    · exact .of_key SparseTerm.index sr
    · exact .of_key_gt SparseTerm.value sr
  exact sorter.sort_spec _ sr hweak

/-- The pruned vector holds the heaviest terms in the order of the format. -/
theorem prune_spec (sorter : SortImpl) (options : SparseOptions α) (sr : SparseResult α) :
    ∃ out, sparsePruneAndSort sorter options sr = .ok out ∧
      Heaviest SparseTerm.value (keepCount options sr) (dropLight options.minWeight sr) out ∧
      out.Pairwise (InOrder (formatOrder options.storageFormat)) := by
  obtain ⟨top, htop, rest, hperm, hlen, hle⟩ :=
    keepTop_spec sorter options.topK (dropLight options.minWeight sr)
  obtain ⟨out, hsort, hout, hordered⟩ := sort_format_spec sorter options.storageFormat top
  refine ⟨out, ?_, ⟨rest, (hout.append_right rest).trans hperm, hout.length_eq.trans hlen,
    fun a ha b hb => hle a (hout.subset ha) b hb⟩, hordered⟩
  simp only [sparsePruneAndSort, htop, ok_bind, hsort]

-- ---------------------------------------------------------------------------
-- What is kept
-- ---------------------------------------------------------------------------

/-- The terms are selected before the format is looked at. -/
theorem prune_anyFormat {sorter : SortImpl} {options : SparseOptions α} {sr out : SparseResult α}
    (h : sparsePruneAndSort sorter options sr = .ok out) (storageFormat : Int) :
    ∃ other, sparsePruneAndSort sorter { options with storageFormat := storageFormat } sr =
      .ok other ∧ other.Perm out := by
  obtain ⟨top, htop, -⟩ := keepTop_spec sorter options.topK (dropLight options.minWeight sr)
  obtain ⟨own, hown, hperm, -⟩ := sort_format_spec sorter options.storageFormat top
  obtain ⟨other, hother, hperm', -⟩ := sort_format_spec sorter storageFormat top
  simp only [sparsePruneAndSort, htop, ok_bind, hown] at h
  cases h
  refine ⟨other, ?_, hperm'.trans hperm.symm⟩
  simp only [sparsePruneAndSort, htop, ok_bind, hother]

/-- A vector of survivors no longer than `top_k` is only reordered. -/
theorem prune_perm (sorter : SortImpl) {options : SparseOptions α} {sr : SparseResult α}
    (hheavy : ∀ t ∈ sr, HeavyEnough options.minWeight t)
    (hshort : 0 < options.topK → (sr.length : Int) ≤ options.topK) :
    ∃ out, sparsePruneAndSort sorter options sr = .ok out ∧ out.Perm sr := by
  obtain ⟨out, hout, hheaviest, -⟩ := prune_spec sorter options sr
  rw [dropLight_eq_self hheavy] at hheaviest
  refine ⟨out, hout, hheaviest.perm_of_length_le ?_⟩
  rw [keepCount, dropLight_eq_self hheavy]
  split
  · have := hshort ‹_›
    omega
  · exact le_rfl

/-- For every vector without a repeated index and all options. -/
theorem sparsePruneAndSort_exact (sorter : SortImpl) (options : SparseOptions α)
    (sr : SparseResult α) (hdistinct : (sr.map SparseTerm.index).Nodup) :
    ∃ out, ExactTopK sorter options sr out := by
  obtain ⟨out, hruns, hheaviest, hordered⟩ := prune_spec sorter options sr
  have hkept {t : SparseTerm α} (ht : t ∈ out) : t ∈ sr ∧ HeavyEnough options.minWeight t :=
    mem_dropLight.mp (hheaviest.subset ht)
  have hlength := hheaviest.length
  have hsurvivors : (dropLight options.minWeight sr).length =
      sr.countP fun t => HeavyEnough options.minWeight t := by
    rw [dropLight_eq, List.countP_eq_length_filter]
  have hindices : (out.map SparseTerm.index).Nodup := by
    apply hheaviest.nodup
    rw [dropLight_eq]
    exact hdistinct.sublist (List.filter_sublist.map _)
  refine ⟨out, ?_⟩
  constructor
  · exact hruns
  · exact fun t ht => (hkept ht).1
  · exact hindices
  · exact fun hmin t ht => (hkept ht).2 hmin
  · intro htop
    rw [keepCount, if_pos htop] at hlength
    omega
  · intro htop t ht hheavy
    rw [keepCount, if_neg (not_lt.mpr htop)] at hheaviest
    exact (hheaviest.perm_of_length_le le_rfl).mem_iff.mpr (mem_dropLight.mpr ⟨ht, hheavy⟩)
  · intro t ht u hu hheavy hnot
    exact hheaviest.le_of_not_mem ht (mem_dropLight.mpr ⟨hu, hheavy⟩) hnot
  · intro hformat
    rw [formatOrder, if_pos hformat] at hordered
    -- Equal indices are out, so the order is strict.
    refine (hordered.and (List.pairwise_map.mp hindices)).imp fun {a b} h => ?_
    obtain ⟨hle, hne⟩ := h
    simp only [InOrder, lowerIndex, decide_eq_false_iff_not] at hle
    omega
  · intro hformat
    rw [formatOrder, if_neg hformat] at hordered
    refine hordered.imp fun {a b} h => ?_
    simpa [InOrder, heavier] using h
  · intro storageFormat
    obtain ⟨other, hother, hperm⟩ := prune_anyFormat hruns storageFormat
    exact ⟨other, hother, fun t => hperm.mem_iff⟩
  · have hshort : 0 < options.topK → (out.length : Int) ≤ options.topK := by
      intro htop
      rw [keepCount, if_pos htop] at hlength
      omega
    obtain ⟨same, hsame, hperm⟩ := prune_perm sorter (fun t ht => (hkept ht).2) hshort
    exact ⟨same, hsame, fun t => hperm.mem_iff⟩

/-- Two of three terms tied at the cut, the lightest below the threshold. -/
theorem sparsePruneAndSort_exact_tied :
    ∃ out, ExactTopK (α := Int) insertionImpl ⟨2, 2, sparseFormatIndexOrder⟩
      [⟨7, 3⟩, ⟨-2, 3⟩, ⟨4, 1⟩, ⟨5, 3⟩] out :=
  sparsePruneAndSort_exact _ _ _ (by decide)

end LibEmbedding
