import LibEmbedding.Foundation.Buffer
import LibEmbedding.Foundation.Sorting
import LibEmbedding.Types

/-!
# Sparse vectors

`sparse_postprocess.hpp`: pooling of the logits of a document, pruning and ordering
of the pooled vector. The two vectors of a `SparseResult` are always filled together,
so they are a list of terms. `activation` is `log(1 + x)`.
-/

namespace LibEmbedding

open Foundation

/-- `LEMBED_SPARSE_FORMAT_INDEX_ORDER` -/
def sparseFormatIndexOrder : Int := 1

/-- The members of `lembed_sparse_options_t` the post-processing reads. -/
structure SparseOptions (α : Type) where
  topK : Int
  minWeight : α
  storageFormat : Int
  deriving DecidableEq, Repr

structure SparseTerm (α : Type) where
  index : Int
  value : α
  deriving DecidableEq, Repr

abbrev SparseResult (α : Type) := List (SparseTerm α)

variable {α : Type} [LinearOrder α]

-- ---------------------------------------------------------------------------
-- Pooling
-- ---------------------------------------------------------------------------

section Pooling

variable [Zero α] (activation : α → α)

/-- `scores[v]` after the token with logit `x`. -/
def poolLogit (score x : α) : α :=
  if x ≤ 0 then score else if score < activation x then activation x else score

/-- Without a mask every token is kept. -/
def tokenKept (tokenMask : Option (List Int)) (s : Nat) : Checked Bool :=
  match tokenMask with
  | none => .ok true
  | some mask => do
    let kept ← get mask s
    return kept ≠ 0

def poolToken (logits : List α) (vocabSize : Nat) (tokenMask : Option (List Int))
    (scores : List α) (s : Nat) : Checked (List α) := do
  let kept ← tokenKept tokenMask s
  if !kept then return scores
  let tok ← readAt logits (s * vocabSize) vocabSize
  return scores.zipWith (poolLogit activation) tok

/-- The terms with a positive score, by index. -/
def positiveTerms (scores : List α) : SparseResult α :=
  scores.zipIdx.filterMap fun e => if 0 < e.1 then some ⟨e.2, e.1⟩ else none

/-- `logits` and `tokenMask` start at the first token of the document. -/
def spladePool (logits : List α) (vocabSize : Nat) (tokenMask : Option (List Int))
    (numTokens : Nat) : Checked (SparseResult α) := do
  if vocabSize = 0 ∨ numTokens = 0 then return []
  let scores ← forUpTo numTokens (poolToken activation logits vocabSize tokenMask)
    (List.replicate vocabSize 0)
  return positiveTerms scores

def spladePostprocess (modelOutput : List α) (attentionMask : Option (List Int))
    (batch seqLen vocabSize : Nat) : Checked (List (SparseResult α)) :=
  (List.range batch).mapM fun b =>
    spladePool activation (modelOutput.drop (b * seqLen * vocabSize)) vocabSize
      (attentionMask.map (List.drop (b * seqLen))) seqLen

end Pooling

-- ---------------------------------------------------------------------------
-- Pruning and ordering
-- ---------------------------------------------------------------------------

def dropLight [Zero α] (minWeight : α) (sr : SparseResult α) : SparseResult α :=
  if 0 < minWeight then sr.filter (minWeight ≤ ·.value) else sr

/-- `a.first > b.first` on pairs of a value and an index. -/
def heavier (a b : SparseTerm α) : Bool := decide (b.value < a.value)

def lowerIndex (a b : SparseTerm α) : Bool := decide (a.index < b.index)

def keepTop (sorter : SortImpl) (topK : Int) (sr : SparseResult α) : Checked (SparseResult α) :=
  if 0 < topK ∧ topK < sr.length then do
    let sorted ← sorter.partialSort heavier topK.toNat sr
    return sorted.take topK.toNat
  else .ok sr

/-- The order a storage format asks for. -/
def formatOrder (storageFormat : Int) : SparseTerm α → SparseTerm α → Bool :=
  if storageFormat = sparseFormatIndexOrder then lowerIndex else heavier

def sparsePruneAndSort [Zero α] (sorter : SortImpl) (options : SparseOptions α)
    (sr : SparseResult α) : Checked (SparseResult α) := do
  let sr := dropLight options.minWeight sr
  let sr ← keepTop sorter options.topK sr
  sorter.sort (formatOrder options.storageFormat) sr

-- ---------------------------------------------------------------------------
-- Pooled weights
-- ---------------------------------------------------------------------------

section Weights

variable [Zero α] (activation : α → α)

/-- `log(1 + relu(x))` -/
def saturate (x : α) : α := if x ≤ 0 then 0 else activation x

/-- The logits of the tokens a mask keeps. -/
def keptRows (logits : List α) (vocab : Nat) (mask : List Int) (n : Nat) : List (List α) :=
  ((List.range n).filter fun s => mask.getD s 0 ≠ 0).map fun s => row vocab s logits

/-- The maximum of `log(1 + relu(logit))` over the kept tokens. -/
def weight (rows : List (List α)) (v : Nat) : α :=
  (rows.map fun r => saturate activation (r.getD v 0)).foldl max 0

/-- The pooled vector: the terms with a positive weight. -/
def pooled (vocab : Nat) (rows : List (List α)) : SparseResult α :=
  ((List.range vocab).filter fun v => 0 < weight activation rows v).map
    fun (v : Nat) => ⟨v, weight activation rows v⟩

theorem weight_append (rows : List (List α)) (r : List α) (v : Nat) :
    weight activation (rows ++ [r]) v =
      max (weight activation rows v) (saturate activation (r.getD v 0)) := by
  simp [weight]

omit [Zero α] in
theorem le_foldl_max (xs : List α) (x : α) : x ≤ xs.foldl max x := by
  induction xs generalizing x with
  | nil => exact le_rfl
  | cons y xs ih => exact (le_max_left x y).trans (ih (max x y))

theorem weight_nonneg (rows : List (List α)) (v : Nat) : 0 ≤ weight activation rows v :=
  le_foldl_max _ 0

theorem poolLogit_eq {score : α} (h : 0 ≤ score) (x : α) :
    poolLogit activation score x = max score (saturate activation x) := by
  unfold poolLogit saturate
  split
  · rw [max_eq_left h]
  · split
    · rename_i hlt
      rw [max_eq_right hlt.le]
    · rename_i hlt
      rw [max_eq_left (not_lt.mp hlt)]

omit [LinearOrder α] [Zero α] in
theorem keptRows_succ (logits : List α) (vocab : Nat) (mask : List Int) (n : Nat) :
    keptRows logits vocab mask (n + 1) = if mask.getD n 0 ≠ 0
      then keptRows logits vocab mask n ++ [row vocab n logits] else keptRows logits vocab mask n := by
  rw [keptRows, List.range_succ, List.filter_append, List.map_append]
  split
  · rename_i h
    rw [List.filter_cons_of_pos (by simpa using h), List.filter_nil]
    rfl
  · rename_i h
    rw [List.filter_cons_of_neg (by simpa using h), List.filter_nil, List.map_nil, List.append_nil]
    rfl

theorem poolToken_eq {logits : List α} {vocab n s : Nat} {mask : List Int} (hs : s < n)
    (hlogits : n * vocab ≤ logits.length) (hmask : n ≤ mask.length) :
    poolToken activation logits vocab (some mask)
      ((List.range vocab).map (weight activation (keptRows logits vocab mask s))) s =
    .ok ((List.range vocab).map (weight activation (keptRows logits vocab mask (s + 1)))) := by
  have hget : get mask s = .ok (mask.getD s 0) := get_getD (by omega) 0
  have hbound := row_bound hs vocab
  have hread : readAt logits (s * vocab) vocab = .ok (row vocab s logits) :=
    readAt_ok.mpr ⟨by omega, rfl⟩
  rw [keptRows_succ]
  simp only [poolToken, tokenKept, hget, ok_bind]
  by_cases hkept : mask.getD s 0 = 0
  · simp only [hkept, pure, Except.pure, ok_bind, ne_eq, not_true_eq_false, decide_false,
      Bool.not_false, if_true, if_false]
  · have hrow : (row vocab s logits).length = vocab := length_of_readAt hread
    simp only [pure, Except.pure, ok_bind, hread, hkept, ne_eq, not_false_eq_true,
      decide_true, Bool.not_true, Bool.false_eq_true, if_false]
    congr 1
    apply List.ext_getElem?
    intro v
    by_cases hv : v < vocab
    · simp [hv, hrow, poolLogit_eq activation (weight_nonneg activation _ v),
        weight_append, List.getD_eq_getElem?_getD]
    · rw [List.getElem?_eq_none (by simp; omega), List.getElem?_eq_none (by simp; omega)]

theorem filterMap_ite (p : β → Prop) [DecidablePred p] (f : β → γ) (l : List β) :
    l.filterMap (fun b => if p b then some (f b) else none) = (l.filter p).map f := by
  induction l with
  | nil => rfl
  | cons b l ih => by_cases hb : p b <;> simp [hb, ih]

theorem positiveTerms_eq (w : Nat → α) (vocab : Nat) : positiveTerms ((List.range vocab).map w) =
    ((List.range vocab).filter fun v => 0 < w v).map fun v => ⟨v, w v⟩ := by
  have hzip : ((List.range vocab).map w).zipIdx = (List.range vocab).map fun v => (w v, v) := by
    apply List.ext_getElem?
    intro v
    by_cases hv : v < vocab
    · simp [hv]
    · rw [List.getElem?_eq_none (by simp; omega), List.getElem?_eq_none (by simp; omega)]
  rw [positiveTerms, hzip, List.filterMap_map]
  exact filterMap_ite (fun v => 0 < w v) _ _

theorem spladePool_eq {logits : List α} {vocab n : Nat} {mask : List Int}
    (hlogits : n * vocab ≤ logits.length) (hmask : n ≤ mask.length) :
    spladePool activation logits vocab (some mask) n =
      .ok (pooled activation vocab (keptRows logits vocab mask n)) := by
  unfold spladePool
  by_cases hzero : vocab = 0 ∨ n = 0
  · rw [if_pos hzero]
    rcases hzero with rfl | rfl
    · rfl
    · simp [pooled, keptRows, weight, pure, Except.pure]
  · rw [if_neg hzero]
    let scoresAt (k : Nat) : List α :=
      (List.range vocab).map (weight activation (keptRows logits vocab mask k))
    have hinit : List.replicate vocab 0 = scoresAt 0 :=
      (List.eq_replicate_iff.mpr ⟨by simp [scoresAt], by simp [scoresAt, keptRows, weight]⟩).symm
    have hstep : ∀ s scores, s < n → scores = scoresAt s → ∃ next,
        poolToken activation logits vocab (some mask) scores s = .ok next ∧
          next = scoresAt (s + 1) := by
      rintro s scores hs rfl
      exact ⟨_, poolToken_eq activation hs hlogits hmask, rfl⟩
    obtain ⟨scores, hloop, rfl⟩ := forUpTo_total (fun k scores => scores = scoresAt k) hinit hstep
    rw [hloop, ok_bind, positiveTerms_eq]
    rfl

end Weights

end LibEmbedding
