import LibEmbedding.SparseBackends
import Mathlib.Data.List.DropRight
import Mathlib.Data.List.GetD

/-!
# Reading the output of a sparse model

The ONNX path takes the vocabulary from the output and the batch from the tokenizer, and
compares neither with the number of elements. Where the rows that the mask asks for are not all
there, the pooling reads past the end.
-/

namespace LibEmbedding

open Foundation

variable {α : Type} [LinearOrder α] [Zero α] (activation : α → α)

/-- `vocab_size`, narrowed to an `int`. -/
def sparseVocabSize (shape : List Nat) : Checked Int := do
  let extent ← if 3 ≤ shape.length then get shape 2 else get shape 1
  return toInt32 extent

/-- `model_output + offset`. The data of an empty vector may be a null pointer. -/
def outputAt (data : List α) (nullEmpty : Bool) (offset : Nat) : Option (List α) :=
  if data.isEmpty ∧ nullEmpty ∧ offset = 0 then none else some (data.drop offset)

/-- `splade_pool` on what may be no logits. -/
def poolDocument (logits : Option (List α)) (vocabSize : Int) (tokenMask : List Int)
    (numTokens : Nat) : Checked (SparseResult α) :=
  match logits with
  | none => .ok []
  | some logits => spladePool activation logits vocabSize.toNat (some tokenMask) numTokens

/-- The pooling of an output, before any pruning. -/
def poolOutput (output : Tensor α) (nullEmpty : Bool) (maskFlat : List Int) (bsz seqLen : Nat) :
    Checked (List (SparseResult α)) := do
  let vocabSize ← sparseVocabSize output.shape
  (List.range bsz).mapM fun b =>
    poolDocument activation (outputAt output.data nullEmpty (b * seqLen * vocabSize.toNat))
      vocabSize (maskFlat.drop (b * seqLen)) seqLen

-- ---------------------------------------------------------------------------
-- The rows that are read
-- ---------------------------------------------------------------------------

/-- The extent that `vocab_size` is taken from. -/
def vocabExtent (shape : List Nat) : Nat :=
  if 3 ≤ shape.length then shape.getD 2 0 else shape.getD 1 0

/-- The number of the last token that a mask keeps, counting from one. -/
def lastKept (mask : List Int) : Nat := (mask.rdropWhile (· = 0)).length

/-- The tokens the pooling comes to: a null pointer ends the first document early. -/
def maskRead (output : Tensor α) (nullEmpty : Bool) (maskFlat : List Int) (seqLen : Nat) :
    List Int :=
  if output.data.isEmpty ∧ nullEmpty then maskFlat.drop seqLen else maskFlat

/-- The output has a row for the last token that is kept. -/
def OutputCovers (output : Tensor α) (nullEmpty : Bool) (maskFlat : List Int) (seqLen : Nat) :
    Prop :=
  (lastKept (maskRead output nullEmpty maskFlat seqLen) : Int) *
    toInt32 (vocabExtent output.shape) ≤ output.shape.prod

theorem sparseVocabSize_eq {shape : List Nat} (h : 2 ≤ shape.length) :
    sparseVocabSize shape = .ok (toInt32 (vocabExtent shape)) := by
  unfold sparseVocabSize vocabExtent
  split
  · rw [get_getD (by omega) 0]
    rfl
  · rw [get_getD (by omega) 0]
    rfl

/-- A bound on the last token that is kept is one on all of them. -/
theorem lastKept_mul_le_iff (mask : List Int) (vocab n : Nat) :
    lastKept mask * vocab ≤ n ↔ ∀ p, mask.getD p 0 ≠ 0 → (p + 1) * vocab ≤ n := by
  unfold lastKept
  induction mask using List.reverseRecOn with
  | nil => simp
  | append_singleton mask x ih =>
    have hfront (p : Nat) (hp : p < mask.length) : (mask ++ [x]).getD p 0 = mask.getD p 0 :=
      List.getD_append _ _ _ _ hp
    have hlast : (mask ++ [x]).getD mask.length 0 = x := by simp [List.getD_eq_getElem?_getD]
    have hout (p : Nat) (hp : mask.length < p) : (mask ++ [x]).getD p 0 = 0 :=
      List.getD_eq_default _ _ (by rw [List.length_append, List.length_singleton]; omega)
    rw [List.rdropWhile_concat]
    split
    · rename_i hzero
      have hx : x = 0 := of_decide_eq_true hzero
      rw [ih]
      refine forall_congr' fun p => ?_
      have hsame : (mask ++ [x]).getD p 0 = mask.getD p 0 := by
        rcases lt_trichotomy p mask.length with hlt | rfl | hgt
        · exact hfront p hlt
        · rw [hlast, hx, List.getD_eq_default _ _ le_rfl]
        · rw [hout p hgt, List.getD_eq_default _ _ hgt.le]
      rw [hsame]
    · rename_i hne
      have hx : x ≠ 0 := by simpa using hne
      rw [List.length_append, List.length_singleton]
      constructor
      · intro h p hp
        have hle : p ≤ mask.length := by
          by_contra hgt
          exact hp (hout p (not_le.mp hgt))
        exact (Nat.mul_le_mul_right vocab (Nat.succ_le_succ hle)).trans h
      · intro h
        exact h mask.length (hlast.symm ▸ hx)

variable {activation}

theorem poolToken_reads_iff {logits : List α} {vocab s : Nat} {mask : List Int}
    (scores : List α) (hs : s < mask.length) :
    (∃ t, poolToken activation logits vocab (some mask) scores s = .ok t) ↔
      (mask.getD s 0 ≠ 0 → (s + 1) * vocab ≤ logits.length) := by
  have hget : get mask s = .ok (mask.getD s 0) := get_getD hs 0
  have hend : (s + 1) * vocab = s * vocab + vocab := Nat.succ_mul s vocab
  simp only [poolToken, tokenKept, hget, ok_bind, hend]
  by_cases hkept : mask.getD s 0 = 0
  · simp only [hkept, pure, Except.pure, ok_bind, ne_eq, not_true_eq_false, decide_false,
      Bool.not_false, if_true, false_implies, iff_true]
    exact ⟨_, rfl⟩
  · simp only [hkept, pure, Except.pure, ok_bind, ne_eq, not_false_eq_true, decide_true,
      Bool.not_true, Bool.false_eq_true, if_false, true_implies, bind_ok, readAt_ok]
    constructor
    · rintro ⟨t, tok, ⟨hbound, -⟩, -⟩
      exact hbound
    · intro hbound
      exact ⟨_, _, ⟨hbound, rfl⟩, rfl⟩

/-- A document is pooled exactly when the rows of its kept tokens are there. -/
theorem spladePool_reads_iff {logits : List α} {vocab n : Nat} {mask : List Int}
    (hmask : n ≤ mask.length) (hvocab : 0 < vocab) :
    (∃ r, spladePool activation logits vocab (some mask) n = .ok r) ↔
      ∀ s < n, mask.getD s 0 ≠ 0 → (s + 1) * vocab ≤ logits.length := by
  unfold spladePool
  by_cases hn : n = 0
  · simp [hn, pure, Except.pure]
  · rw [if_neg (by omega)]
    constructor
    · rintro ⟨r, hr⟩ s hs
      obtain ⟨scores, hloop, -⟩ := bind_ok.mp hr
      obtain ⟨before, after, -, hstep⟩ := forUpTo_ran hloop hs
      exact (poolToken_reads_iff before (by omega)).mp ⟨after, hstep⟩
    · intro h
      have hstep : ∀ s scores, s < n → True →
          ∃ t, poolToken activation logits vocab (some mask) scores s = .ok t ∧ True := by
        intro s scores hs _
        obtain ⟨t, ht⟩ := (poolToken_reads_iff scores (by omega)).mpr (h s hs)
        exact ⟨t, ht, trivial⟩
      obtain ⟨scores, hloop, -⟩ := forUpTo_total (fun _ _ => True) trivial hstep
      exact ⟨_, by rw [hloop, ok_bind]; rfl⟩

-- ---------------------------------------------------------------------------
-- The batch
-- ---------------------------------------------------------------------------

/-- A token of a batch is a token of one of its documents. -/
theorem kept_iff_documents {mask : List Int} {bsz seqLen : Nat} (hmask : mask.length = bsz * seqLen)
    (P : Nat → Prop) : (∀ p, mask.getD p 0 ≠ 0 → P p) ↔
      ∀ b < bsz, ∀ s < seqLen, (mask.drop (b * seqLen)).getD s 0 ≠ 0 → P (b * seqLen + s) := by
  have hdrop (b s : Nat) : (mask.drop (b * seqLen)).getD s 0 = mask.getD (b * seqLen + s) 0 := by
    simp [List.getD_eq_getElem?_getD]
  simp only [hdrop]
  constructor
  · intro h b _ s _ hkept
    exact h _ hkept
  · intro h p hkept
    have hp : p < bsz * seqLen := by
      by_contra hge
      exact hkept (List.getD_eq_default _ _ (by omega))
    have hpos : 0 < seqLen := Nat.pos_of_mul_pos_left (Nat.zero_lt_of_lt hp)
    have hsplit : p / seqLen * seqLen + p % seqLen = p := Nat.div_add_mod' p seqLen
    rw [← hsplit]
    refine h _ (Nat.div_lt_of_lt_mul (Nat.mul_comm bsz seqLen ▸ hp)) _ (Nat.mod_lt p hpos) ?_
    rwa [hsplit]

/-- The document at `b` is pooled when its kept rows are there. -/
theorem poolDocument_reads_iff {data : List α} {mask : List Int} {bsz seqLen b vocab : Nat}
    (hmask : mask.length = bsz * seqLen) (hb : b < bsz) (hvocab : 0 < vocab) :
    (∃ r, poolDocument activation (some (data.drop (b * seqLen * vocab))) vocab
        (mask.drop (b * seqLen)) seqLen = .ok r) ↔
      ∀ s < seqLen, (mask.drop (b * seqLen)).getD s 0 ≠ 0 →
        (b * seqLen + s + 1) * vocab ≤ data.length := by
  have hlen : seqLen ≤ (mask.drop (b * seqLen)).length := by
    have hbound := row_bound hb seqLen
    rw [List.length_drop, hmask]
    omega
  rw [poolDocument, Int.toNat_natCast, spladePool_reads_iff hlen hvocab, List.length_drop]
  refine forall_congr' fun s => forall_congr' fun _ => forall_congr' fun _ => ?_
  have hend : (b * seqLen + s + 1) * vocab = b * seqLen * vocab + (s + 1) * vocab := by ring
  have hpos : 0 < (s + 1) * vocab := Nat.mul_pos s.succ_pos hvocab
  rw [hend]
  omega

/-- No document is read where the extent is not a positive `int`. -/
theorem poolDocument_of_nonpos {vocabSize : Int} (h : vocabSize ≤ 0) (logits : Option (List α))
    (mask : List Int) (n : Nat) : poolDocument activation logits vocabSize mask n = .ok [] := by
  cases logits with
  | none => rfl
  | some logits => rw [poolDocument, Int.toNat_of_nonpos h, spladePool, if_pos (.inl rfl)]; rfl

/-- Where the data is somewhere, every kept token needs its row. -/
theorem documents_reads_iff {data : List α} {mask : List Int} {bsz seqLen vocab : Nat}
    (hmask : mask.length = bsz * seqLen) (hvocab : 0 < vocab) :
    (∀ b < bsz, ∃ r, poolDocument activation (some (data.drop (b * seqLen * vocab))) vocab
        (mask.drop (b * seqLen)) seqLen = .ok r) ↔ lastKept mask * vocab ≤ data.length := by
  rw [lastKept_mul_le_iff, kept_iff_documents hmask fun p => (p + 1) * vocab ≤ data.length]
  exact forall_congr' fun b => forall_congr' fun hb => poolDocument_reads_iff hmask hb hvocab

/-- Behind a null pointer nothing can be read, and only the first document does not try. -/
theorem null_reads_iff {mask : List Int} {bsz seqLen vocab : Nat}
    (hmask : mask.length = bsz * seqLen) (hvocab : 0 < vocab) :
    (∀ b < bsz, ∃ r, poolDocument activation
        (outputAt ([] : List α) true (b * seqLen * vocab)) vocab (mask.drop (b * seqLen)) seqLen =
          .ok r) ↔ lastKept (mask.drop seqLen) * vocab ≤ 0 := by
  have hfirst : outputAt ([] : List α) true 0 = none := rfl
  rcases Nat.eq_zero_or_pos seqLen with rfl | hseq
  · have hnil : mask = [] := List.length_eq_zero_iff.mp hmask
    simp [hnil, hfirst, poolDocument, lastKept]
  · cases bsz with
    | zero =>
      have hnil : mask = [] := List.length_eq_zero_iff.mp (by rw [hmask, Nat.zero_mul])
      simp [hnil, lastKept]
    | succ bsz =>
      have hrest : (mask.drop seqLen).length = bsz * seqLen := by
        rw [List.length_drop, hmask, Nat.succ_mul, Nat.add_sub_cancel]
      have hkept : (∀ b < bsz, ∃ r, poolDocument activation
          (some (([] : List α).drop (b * seqLen * vocab))) vocab
          ((mask.drop seqLen).drop (b * seqLen)) seqLen = .ok r) ↔
            lastKept (mask.drop seqLen) * vocab ≤ ([] : List α).length :=
        documents_reads_iff hrest hvocab
      have hlater (b : Nat) : outputAt ([] : List α) true ((b + 1) * seqLen * vocab) =
          some (([] : List α).drop (b * seqLen * vocab)) := by
        have hpos : 0 < (b + 1) * seqLen * vocab :=
          Nat.mul_pos (Nat.mul_pos b.succ_pos hseq) hvocab
        rw [outputAt, if_neg (by omega), List.drop_nil, List.drop_nil]
      have hmasks (b : Nat) :
          mask.drop ((b + 1) * seqLen) = (mask.drop seqLen).drop (b * seqLen) := by
        rw [List.drop_drop, Nat.succ_mul, Nat.add_comm]
      rw [← List.length_nil, ← hkept]
      constructor
      · intro h b hb
        have hdocument := h (b + 1) (Nat.succ_lt_succ hb)
        rwa [hlater, hmasks] at hdocument
      · intro h b hb
        cases b with
        | zero =>
          rw [Nat.zero_mul, Nat.zero_mul, hfirst]
          exact ⟨[], rfl⟩
        | succ b =>
          rw [hlater, hmasks]
          exact h b (Nat.lt_of_succ_lt_succ hb)

/-- Pooling keeps inside the output exactly when the output covers the tokens that are kept. -/
theorem poolOutput_reads_iff (activation : α → α) (output : Tensor α) (nullEmpty : Bool)
    (maskFlat : List Int) (bsz seqLen : Nat) (hrank : 2 ≤ output.shape.length)
    (hmask : maskFlat.length = bsz * seqLen) :
    (∃ r, poolOutput activation output nullEmpty maskFlat bsz seqLen = .ok r) ↔
      OutputCovers output nullEmpty maskFlat seqLen := by
  unfold OutputCovers
  simp only [poolOutput, sparseVocabSize_eq hrank, ok_bind]
  rw [mapM_total_iff]
  simp only [List.mem_range]
  rcases le_or_gt (toInt32 (vocabExtent output.shape)) 0 with hnone | hsome
  · refine iff_of_true (fun b _ => ⟨[], poolDocument_of_nonpos hnone _ _ _⟩) ?_
    exact (mul_nonpos_of_nonneg_of_nonpos (Int.natCast_nonneg _) hnone).trans
      (Int.natCast_nonneg _)
  · obtain ⟨vocab, hvocab⟩ := Int.eq_ofNat_of_zero_le hsome.le
    rw [hvocab] at hsome ⊢
    have hpos : 0 < vocab := by omega
    rw [Int.toNat_natCast, ← output.sized, ← Int.natCast_mul, Int.ofNat_le]
    by_cases hnull : output.data.isEmpty ∧ nullEmpty
    · obtain ⟨hempty, rfl⟩ := hnull
      rw [maskRead, if_pos ⟨hempty, rfl⟩, List.isEmpty_iff.mp hempty]
      exact null_reads_iff hmask hpos
    · have hsomewhere (offset : Nat) :
          outputAt output.data nullEmpty offset = some (output.data.drop offset) :=
        if_neg fun h => hnull ⟨h.1, h.2.1⟩
      simp only [hsomewhere]
      rw [maskRead, if_neg hnull]
      exact documents_reads_iff hmask hpos

/-- The postprocessing of a batch pools its output, where an `int` holds the vocabulary. -/
theorem onnxPostprocess_eq (sorter : SortImpl) {output : Tensor α} (hrank : 2 ≤ output.shape.length)
    (hextent : vocabExtent output.shape < 2 ^ 31) (hdata : output.data ≠ []) (nullEmpty : Bool)
    (maskFlat : List Int) (bsz seqLen : Nat) (options : SparseOptions α) :
    onnxPostprocess sorter activation output maskFlat bsz seqLen options =
      (poolOutput activation output nullEmpty maskFlat bsz seqLen >>= fun sparse =>
        sparse.mapM (sparsePruneAndSort sorter options)) := by
  have hsomewhere (offset : Nat) :
      outputAt output.data nullEmpty offset = some (output.data.drop offset) :=
    if_neg fun h => hdata (List.isEmpty_iff.mp h.1)
  simp only [poolOutput, sparseVocabSize_eq hrank, ok_bind, toInt32_eq hextent, hsomewhere,
    poolDocument, Int.toNat_natCast]
  unfold onnxPostprocess vocabExtent
  split
  · rw [get_getD (by omega) 0]
    rfl
  · rw [get_getD (by omega) 0]
    rfl

/-- One row for a text of two tokens, both kept. -/
def oneRow : Tensor Int := ⟨[1, 1], [1, 2], rfl⟩

theorem poolOutput_reads_iff_padded :
    ∃ r, poolOutput id oneRow true [1, 0] 1 2 = .ok r :=
  (poolOutput_reads_iff id oneRow true [1, 0] 1 2 (by decide) (by decide)).mpr
    (by unfold OutputCovers; decide +kernel)

theorem poolOutput_reads_past_end : ¬∀ (output : Tensor Int) (nullEmpty : Bool)
    (maskFlat : List Int) (bsz seqLen : Nat), 2 ≤ output.shape.length →
      maskFlat.length = bsz * seqLen →
        ∃ r, poolOutput id output nullEmpty maskFlat bsz seqLen = .ok r := by
  intro h
  obtain ⟨r, hr⟩ := h oneRow true [1, 1] 1 2 (by decide) (by decide)
  have hfault : poolOutput id oneRow true [1, 1] 1 2 = .error .outOfBounds := by decide +kernel
  rw [hfault] at hr
  cases hr

end LibEmbedding
