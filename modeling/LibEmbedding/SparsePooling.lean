import LibEmbedding.SparsePostprocess
import Mathlib.Analysis.SpecialFunctions.Log.Basic

/-!
# Pooling a document

What `splade_pool` makes of the logits of a document in terms of single logits: which indices
the vector has and what their weights are. Masking a token and leaving it out come to the same.
-/

namespace LibEmbedding

open Foundation

variable {α : Type}

/-- A document to pool: logits, `[tokens, vocab]`, and a mask to be read at every token. -/
structure TokenLogits (α : Type) where
  tokens : Nat
  vocab : Nat
  logits : List α
  mask : Option (List Int)
  readable : tokens * vocab ≤ logits.length
  maskReadable : ∀ m ∈ mask, tokens ≤ m.length

/-- A batch to pool: logits, `[batch, seqLen, vocab]`, and a mask, `[batch, seqLen]`. -/
structure LogitBatch (α : Type) where
  batch : Nat
  seqLen : Nat
  vocab : Nat
  logits : List α
  mask : Option (List Int)
  sized : logits.length = batch * seqLen * vocab
  maskSized : ∀ m ∈ mask, m.length = batch * seqLen

namespace TokenLogits

def pool [LinearOrder α] [Zero α] (d : TokenLogits α) (activation : α → α) : Checked (SparseResult α) :=
  spladePool activation d.logits d.vocab d.mask d.tokens

/-- The mask keeps the token. -/
def Counts (d : TokenLogits α) (s : Nat) : Prop := ∀ m ∈ d.mask, m.getD s 0 ≠ 0

instance (d : TokenLogits α) (s : Nat) : Decidable (d.Counts s) :=
  inferInstanceAs (Decidable (∀ m ∈ d.mask, _))

def logit [Zero α] (d : TokenLogits α) (s v : Nat) : α := d.logits.getD (s * d.vocab + v) 0

def keptTokens (d : TokenLogits α) : List Nat := (List.range d.tokens).filter fun s => d.Counts s

def rows (d : TokenLogits α) : List (List α) := d.keptTokens.map fun s => row d.vocab s d.logits

theorem length_row (d : TokenLogits α) (hs : s < d.tokens) :
    (row d.vocab s d.logits).length = d.vocab := by
  have hbound := row_bound hs d.vocab
  have hreadable := d.readable
  rw [row, List.length_take, List.length_drop]
  omega

theorem lt_of_mem_keptTokens {d : TokenLogits α} (h : s ∈ d.keptTokens) : s < d.tokens :=
  List.mem_range.mp (List.mem_filter.mp h).1

theorem length_of_mem_rows (d : TokenLogits α) :
    ∀ s ∈ d.keptTokens, (row d.vocab s d.logits).length = d.vocab :=
  fun _ hs => d.length_row (lt_of_mem_keptTokens hs)

/-- The document with the tokens that do not count taken out, so that no mask is needed. -/
def withoutPadding (d : TokenLogits α) : TokenLogits α where
  tokens := d.keptTokens.length
  vocab := d.vocab
  logits := d.keptTokens.flatMap fun s => row d.vocab s d.logits
  mask := none
  readable := (length_flatMap d.length_of_mem_rows).ge
  maskReadable := by simp

/-- What the vector `r` pooled from `d` has to be. -/
structure PooledFrom [LinearOrder α] [Zero α] (d : TokenLogits α) (activation : α → α)
    (r : SparseResult α) : Prop where
  ascending : (r.map SparseTerm.index).Pairwise (· < ·)
  contains : ∀ i, i ∈ r.map SparseTerm.index ↔
    ∃ v : Nat, v < d.vocab ∧ i = v ∧ ∃ s < d.tokens, d.Counts s ∧ 0 < d.logit s v
  weights : ∀ t ∈ r, ∀ v : Nat, t.index = v →
    IsGreatest {w | ∃ s < d.tokens, d.Counts s ∧ 0 < d.logit s v ∧ w = activation (d.logit s v)}
      t.value

end TokenLogits

variable [LinearOrder α] [Zero α]

-- ---------------------------------------------------------------------------
-- The weight of a term
-- ---------------------------------------------------------------------------

section Weights

variable {activation : α → α} {rows : List (List α)}

theorem saturate_le_weight (activation : α → α) (v : Nat) (h : r ∈ rows) :
    saturate activation (r.getD v 0) ≤ weight activation rows v := by
  induction rows using List.reverseRecOn with
  | nil => cases h
  | append_singleton rows last ih =>
    rw [weight_append]
    rcases List.mem_append.mp h with hrow | hlast
    · exact (ih hrow).trans (le_max_left _ _)
    · rw [List.mem_singleton.mp hlast]
      exact le_max_right _ _

theorem weight_attained (v : Nat) (h : 0 < weight activation rows v) :
    ∃ r ∈ rows, weight activation rows v = saturate activation (r.getD v 0) := by
  induction rows using List.reverseRecOn with
  | nil => exact absurd h (lt_irrefl 0)
  | append_singleton rows last ih =>
    rw [weight_append] at h ⊢
    rcases le_total (weight activation rows v) (saturate activation (last.getD v 0)) with
      hle | hle
    · exact ⟨last, by simp, max_eq_right hle⟩
    · rw [max_eq_left hle] at h ⊢
      obtain ⟨r, hr, heq⟩ := ih h
      exact ⟨r, List.mem_append_left _ hr, heq⟩

variable (hmono : StrictMonoOn activation (Set.Ici 0)) (hzero : activation 0 = 0)

include hmono hzero

theorem saturate_pos_iff {x : α} : 0 < saturate activation x ↔ 0 < x := by
  unfold saturate
  split
  · rename_i hle
    simp [not_lt.mpr hle]
  · rename_i hpos
    have hx : 0 < x := not_le.mp hpos
    have hlt := hmono (Set.mem_Ici.mpr le_rfl) (Set.mem_Ici.mpr hx.le) hx
    rw [hzero] at hlt
    exact ⟨fun _ => hx, fun _ => hlt⟩

theorem weight_pos_iff (v : Nat) : 0 < weight activation rows v ↔ ∃ r ∈ rows, 0 < r.getD v 0 := by
  constructor
  · intro h
    obtain ⟨r, hr, heq⟩ := weight_attained v h
    rw [heq] at h
    exact ⟨r, hr, (saturate_pos_iff hmono hzero).mp h⟩
  · rintro ⟨r, hr, hpos⟩
    exact ((saturate_pos_iff hmono hzero).mpr hpos).trans_le (saturate_le_weight activation v hr)

theorem weight_isGreatest (v : Nat) (h : 0 < weight activation rows v) :
    IsGreatest {w | ∃ r ∈ rows, 0 < r.getD v 0 ∧ w = activation (r.getD v 0)}
      (weight activation rows v) := by
  constructor
  · obtain ⟨r, hr, heq⟩ := weight_attained v h
    have hpos : 0 < r.getD v 0 := by
      rw [heq] at h
      exact (saturate_pos_iff hmono hzero).mp h
    refine ⟨r, hr, hpos, ?_⟩
    rw [heq, saturate, if_neg (not_le.mpr hpos)]
  · rintro w ⟨r, hr, hpos, rfl⟩
    have hle := saturate_le_weight activation v hr
    rwa [saturate, if_neg (not_le.mpr hpos)] at hle

end Weights

-- ---------------------------------------------------------------------------
-- Documents
-- ---------------------------------------------------------------------------

/-- A missing mask is one that keeps every token. -/
theorem spladePool_none (activation : α → α) (logits : List α) (vocab n : Nat) :
    spladePool activation logits vocab none n =
      spladePool activation logits vocab (some (List.replicate n 1)) n := by
  have hbody : ∀ s < n, ∀ scores, poolToken activation logits vocab none scores s =
      poolToken activation logits vocab (some (List.replicate n 1)) scores s := by
    intro s hs scores
    have hget : get (List.replicate n (1 : Int)) s = .ok 1 := by
      rw [get_ok, List.getElem?_replicate, if_pos hs]
    simp [poolToken, tokenKept, hget]
  unfold spladePool
  rw [forUpTo_congr hbody]

namespace TokenLogits

theorem pool_eq (d : TokenLogits α) (activation : α → α) :
    d.pool activation = .ok (pooled activation d.vocab d.rows) := by
  obtain ⟨tokens, vocab, logits, mask, hreadable, hmask⟩ := d
  cases mask with
  | some m =>
    rw [pool, spladePool_eq activation hreadable (hmask m rfl)]
    simp [rows, keptTokens, keptRows, Counts]
  | none =>
    rw [pool, spladePool_none, spladePool_eq activation hreadable (by simp)]
    have hall : ∀ s ∈ List.range tokens, (List.replicate tokens (1 : Int)).getD s 0 ≠ 0 := by
      intro s hs
      simp [List.getD_eq_getElem?_getD, List.mem_range.mp hs]
    have hkept : keptRows logits vocab (List.replicate tokens 1) tokens =
        (List.range tokens).map fun s => row vocab s logits := by
      rw [keptRows, List.filter_eq_self.mpr fun s hs => decide_eq_true (hall s hs)]
    simp [rows, keptTokens, Counts, hkept]

omit [LinearOrder α] in
theorem exists_mem_rows {d : TokenLogits α} (p : α → Prop) (hv : v < d.vocab) :
    (∃ r ∈ d.rows, p (r.getD v 0)) ↔ ∃ s < d.tokens, d.Counts s ∧ p (d.logit s v) := by
  have hgetD (s : Nat) : (row d.vocab s d.logits).getD v 0 = d.logit s v := by
    rw [List.getD_eq_getElem?_getD, getElem?_row, if_pos hv, logit, List.getD_eq_getElem?_getD]
  simp only [rows, keptTokens, List.mem_map, List.mem_filter, List.mem_range, decide_eq_true_eq]
  constructor
  · rintro ⟨r, ⟨s, ⟨hs, hcounts⟩, rfl⟩, hp⟩
    exact ⟨s, hs, hcounts, hgetD s ▸ hp⟩
  · rintro ⟨s, hs, hcounts, hp⟩
    exact ⟨_, ⟨s, ⟨hs, hcounts⟩, rfl⟩, (hgetD s).symm ▸ hp⟩

omit [LinearOrder α] [Zero α] in
theorem rows_withoutPadding (d : TokenLogits α) : d.withoutPadding.rows = d.rows := by
  have hall : d.withoutPadding.keptTokens = List.range d.keptTokens.length := by
    simp [keptTokens, withoutPadding, Counts]
  rw [rows, hall]
  apply List.ext_getElem?
  intro i
  rw [List.getElem?_map, rows, List.getElem?_map]
  cases hkept : d.keptTokens[i]? with
  | none => simp [List.getElem?_eq_none_iff.mp hkept]
  | some s =>
    have hi : i < d.keptTokens.length := (List.getElem?_eq_some_iff.mp hkept).1
    rw [List.getElem?_range hi, Option.map_some, Option.map_some]
    exact congrArg some (row_flatMap d.length_of_mem_rows hkept)

theorem pool_withoutPadding (d : TokenLogits α) (activation : α → α) :
    d.withoutPadding.pool activation = d.pool activation := by
  rw [pool_eq, pool_eq, rows_withoutPadding]
  rfl

theorem pooledFrom_pooled {activation : α → α} (hmono : StrictMonoOn activation (Set.Ici 0))
    (hzero : activation 0 = 0) (d : TokenLogits α) :
    d.PooledFrom activation (pooled activation d.vocab d.rows) := by
  have hindices : (pooled activation d.vocab d.rows).map SparseTerm.index =
      ((List.range d.vocab).filter fun v => 0 < weight activation d.rows v).map
        fun (v : Nat) => (v : Int) := by
    rw [pooled, List.map_map]
    rfl
  constructor
  · rw [hindices, List.pairwise_map]
    exact (List.pairwise_lt_range.filter _).imp fun h => Int.ofNat_lt.mpr h
  · intro i
    rw [hindices]
    simp only [List.mem_map, List.mem_filter, List.mem_range, decide_eq_true_eq]
    constructor
    · rintro ⟨v, ⟨hv, hpos⟩, rfl⟩
      exact ⟨v, hv, rfl, (exists_mem_rows (0 < ·) hv).mp ((weight_pos_iff hmono hzero v).mp hpos)⟩
    · rintro ⟨v, hv, rfl, hpos⟩
      exact ⟨v, ⟨hv, (weight_pos_iff hmono hzero v).mpr ((exists_mem_rows (0 < ·) hv).mpr hpos)⟩,
        rfl⟩
  · intro t ht v hindex
    simp only [pooled, List.mem_map, List.mem_filter, List.mem_range, decide_eq_true_eq] at ht
    obtain ⟨u, ⟨hu, hpos⟩, rfl⟩ := ht
    obtain rfl : u = v := Int.ofNat_inj.mp hindex
    have hgreatest := weight_isGreatest hmono hzero u hpos
    have hset : {w | ∃ r ∈ d.rows, 0 < r.getD u 0 ∧ w = activation (r.getD u 0)} =
        {w | ∃ s < d.tokens, d.Counts s ∧ 0 < d.logit s u ∧ w = activation (d.logit s u)} :=
      Set.ext fun w => exists_mem_rows (fun x => 0 < x ∧ w = activation x) hu
    rwa [hset] at hgreatest

end TokenLogits

-- ---------------------------------------------------------------------------
-- Batches
-- ---------------------------------------------------------------------------

namespace LogitBatch

/-- The document that starts at row `b`. -/
def document (m : LogitBatch α) (b : Fin m.batch) : TokenLogits α where
  tokens := m.seqLen
  vocab := m.vocab
  logits := m.logits.drop (b * m.seqLen * m.vocab)
  mask := m.mask.map (List.drop (b * m.seqLen))
  readable := by
    have hrow := Nat.mul_le_mul_right m.vocab (row_bound b.isLt m.seqLen)
    rw [Nat.add_mul] at hrow
    rw [List.length_drop, m.sized]
    omega
  maskReadable := by
    intro mask hmask
    obtain ⟨whole, hwhole, rfl⟩ := Option.mem_map.mp hmask
    have hrow := row_bound b.isLt m.seqLen
    rw [List.length_drop, m.maskSized whole hwhole]
    omega

def pool (m : LogitBatch α) (activation : α → α) : Checked (List (SparseResult α)) :=
  spladePostprocess activation m.logits m.mask m.batch m.seqLen m.vocab

/-- The vector of a row. -/
def pooledAt (m : LogitBatch α) (activation : α → α) (b : Nat) : SparseResult α :=
  if hb : b < m.batch then pooled activation m.vocab (m.document ⟨b, hb⟩).rows else []

theorem pool_eq (m : LogitBatch α) (activation : α → α) :
    m.pool activation = .ok ((List.range m.batch).map (m.pooledAt activation)) := by
  refine mapM_eq fun b hb => ?_
  have hb := List.mem_range.mp hb
  rw [pooledAt, dif_pos hb]
  exact (m.document ⟨b, hb⟩).pool_eq activation

end LogitBatch

/-- Pooling, for every document and every batch. -/
structure SpladeLaw (activation : α → α) : Prop where
  document : ∀ d : TokenLogits α, ∃ r, d.pool activation = .ok r ∧ d.PooledFrom activation r ∧
    d.withoutPadding.pool activation = .ok r
  batch : ∀ m : LogitBatch α, ∃ results, m.pool activation = .ok results ∧
    results.length = m.batch ∧ ∀ b : Fin m.batch, ∃ r, results[b.val]? = some r ∧
      (m.document b).PooledFrom activation r ∧
      (m.document b).withoutPadding.pool activation = .ok r

theorem spladeLaw {activation : α → α} (hmono : StrictMonoOn activation (Set.Ici 0))
    (hzero : activation 0 = 0) : SpladeLaw activation := by
  constructor
  · intro d
    exact ⟨_, d.pool_eq activation, d.pooledFrom_pooled hmono hzero,
      (d.pool_withoutPadding activation).trans (d.pool_eq activation)⟩
  · intro m
    refine ⟨_, m.pool_eq activation, by simp, fun b => ⟨m.pooledAt activation b, ?_, ?_⟩⟩
    · rw [List.getElem?_map, List.getElem?_range b.isLt]
      rfl
    · rw [LogitBatch.pooledAt, dif_pos b.isLt]
      exact ⟨(m.document b).pooledFrom_pooled hmono hzero,
        ((m.document b).pool_withoutPadding activation).trans ((m.document b).pool_eq activation)⟩

/-- The activation of the code, in the reals. -/
theorem spladeLaw_log : SpladeLaw fun x : ℝ => Real.log (1 + x) := by
  refine spladeLaw ?_ (by simp)
  intro x hx y _ hxy
  have hpos : 0 ≤ x := hx
  exact Real.log_lt_log (by linarith) (by linarith)

end LibEmbedding
