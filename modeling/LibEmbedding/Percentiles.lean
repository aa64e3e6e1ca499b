import LibEmbedding.Foundation.Interpolation
import LibEmbedding.RerankerTuningBest

/-!
# Percentiles of the measured times

`percentile_sorted` with its reads. On a sorted sample it is an interpolation of numbers that never
fall, and so are the percentiles of a report.
-/

namespace LibEmbedding

open Foundation

/-- The conversion of a whole number to `size_t`. -/
def toSize (x : Int) : Checked Nat := do
  ensure (0 ≤ x) .overflow
  return x.toNat

/-- `percentile_sorted`, with what it reads of the sample. -/
def readPercentile (sorted : List ℚ) (pct : ℚ) : Checked ℚ :=
  if sorted.isEmpty then return 0
  else if sorted.length = 1 then get sorted 0
  else do
    let rank := pct * ((sorted.length : ℚ) - 1)
    let lo ← toSize rank.floor
    let hi ← toSize rank.ceil
    if rank.floor = rank.ceil then get sorted lo
    else
      let below ← get sorted lo
      let above ← get sorted hi
      return below + (above - below) * (rank - rank.floor)

variable {sorted : List ℚ} {p q pct : ℚ}

-- ---------------------------------------------------------------------------
-- One percentile
-- ---------------------------------------------------------------------------

/-- The rank of a fraction. -/
def rankOf (sorted : List ℚ) (pct : ℚ) : ℚ := pct * ((sorted.length : ℚ) - 1)

theorem length_sub_one (hne : sorted ≠ []) :
    (sorted.length : ℚ) - 1 = ((sorted.length - 1 : Nat) : ℚ) := by
  rw [Nat.cast_sub (List.length_pos_of_ne_nil hne), Nat.cast_one]

theorem rankOf_nonneg (hne : sorted ≠ []) (hpct : 0 ≤ pct) : 0 ≤ rankOf sorted pct := by
  rw [rankOf, length_sub_one hne]
  exact mul_nonneg hpct (Nat.cast_nonneg _)

theorem rankOf_le_rankOf (hne : sorted ≠ []) (hpq : p ≤ q) : rankOf sorted p ≤ rankOf sorted q := by
  rw [rankOf, rankOf, length_sub_one hne]
  exact mul_le_mul_of_nonneg_right hpq (Nat.cast_nonneg _)

theorem rankOf_le (hne : sorted ≠ []) (hpct : pct ≤ 1) :
    rankOf sorted pct ≤ (sorted.length - 1 : Nat) := by
  have hlast : rankOf sorted 1 = ((sorted.length - 1 : Nat) : ℚ) := by
    rw [rankOf, length_sub_one hne, one_mul]
  rw [← hlast]
  exact rankOf_le_rankOf hne hpct

theorem ceil_rankOf_lt (hne : sorted ≠ []) (hpct : pct ≤ 1) :
    ⌈rankOf sorted pct⌉₊ < sorted.length :=
  (Nat.ceil_le.mpr (rankOf_le hne hpct)).trans_lt (Nat.sub_one_lt_of_lt
    (List.length_pos_of_ne_nil hne))

theorem floor_toNat (r : ℚ) : r.floor.toNat = ⌊r⌋₊ := rfl

theorem ceil_toNat (r : ℚ) : r.ceil.toNat = ⌈r⌉₊ := by
  rw [Rat.ceil_eq_neg_floor_neg]
  rfl

/-- A percentile is an interpolation at its rank. -/
theorem percentileSorted_eq (hne : sorted ≠ []) (pct : ℚ) :
    percentileSorted sorted pct = interpolate (sorted.getD · 0) (rankOf sorted pct) := by
  match sorted with
  | [] => exact absurd rfl hne
  | [x] =>
    have hrank : rankOf [x] pct = 0 := by
      rw [rankOf, List.length_singleton, Nat.cast_one, sub_self, mul_zero]
    rw [hrank, interpolate_of_floor_eq_ceil (by rw [Nat.floor_zero, Nat.ceil_zero]), Nat.floor_zero]
    rfl
  | x :: y :: rest =>
    unfold percentileSorted
    dsimp only
    rw [ceil_toNat, floor_toNat]
    split
    · rename_i hwhole
      have hends : ⌊rankOf (x :: y :: rest) pct⌋₊ = ⌈rankOf (x :: y :: rest) pct⌉₊ := hwhole
      rw [interpolate_of_floor_eq_ceil hends]
      rfl
    · rfl

theorem toSize_eq {x : Int} (hx : 0 ≤ x) : toSize x = .ok x.toNat := by
  rw [toSize, ensure_pos hx]
  rfl

/-- Every read is inside the sample. -/
theorem readPercentile_eq (hne : sorted ≠ []) (hnonneg : 0 ≤ pct) (hone : pct ≤ 1) :
    readPercentile sorted pct = .ok (percentileSorted sorted pct) := by
  have hrank := rankOf_nonneg hne hnonneg
  have hceil := ceil_rankOf_lt hne hone
  have hfloor : ⌊rankOf sorted pct⌋₊ < sorted.length := (Nat.floor_le_ceil _).trans_lt hceil
  match sorted with
  | [] => exact absurd rfl hne
  | [x] => rfl
  | x :: y :: rest =>
    have hlo : toSize (rankOf (x :: y :: rest) pct).floor = .ok ⌊rankOf (x :: y :: rest) pct⌋₊ :=
      toSize_eq (Int.floor_nonneg.mpr hrank)
    have hhi : toSize (rankOf (x :: y :: rest) pct).ceil = .ok ⌈rankOf (x :: y :: rest) pct⌉₊ := by
      rw [toSize_eq, ceil_toNat]
      rw [Rat.ceil_eq_neg_floor_neg]
      exact Int.ceil_nonneg hrank
    have hlong : (x :: y :: rest).length ≠ 1 := by simp
    rw [readPercentile, if_neg (by simp), if_neg hlong]
    dsimp only
    rw [← rankOf, hlo, ok_bind, hhi, ok_bind, percentileSorted_eq hne]
    split
    · rename_i hwhole
      have hends : ⌊rankOf (x :: y :: rest) pct⌋₊ = ⌈rankOf (x :: y :: rest) pct⌉₊ := by
        rw [← floor_toNat, ← ceil_toNat, hwhole]
      rw [interpolate_of_floor_eq_ceil hends]
      exact get_getD hfloor 0
    · have hcast : ((rankOf (x :: y :: rest) pct).floor : ℚ) = ⌊rankOf (x :: y :: rest) pct⌋₊ :=
        (natCast_floor_eq_intCast_floor hrank).symm
      rw [get_getD hfloor 0, ok_bind, get_getD hceil 0, ok_bind, hcast]
      rfl

theorem monotoneOn_sorted (hsorted : sorted.Pairwise (· ≤ ·)) :
    MonotoneOn (sorted.getD · 0) (Set.Iic (sorted.length - 1)) := by
  intro i hi j hj hij
  rcases Nat.eq_zero_or_pos sorted.length with hzero | hpos
  · rw [List.length_eq_zero_iff.mp hzero]
    exact le_rfl
  · have hi : i < sorted.length := Nat.lt_of_le_pred hpos hi
    have hj : j < sorted.length := Nat.lt_of_le_pred hpos hj
    dsimp only
    have hvalue : ∀ k (hk : k < sorted.length), sorted.getD k 0 = sorted.get ⟨k, hk⟩ := by
      intro k hk
      rw [List.getD_eq_getElem?_getD, List.getElem?_eq_getElem hk]
      rfl
    have hle : (⟨i, hi⟩ : Fin sorted.length) ≤ ⟨j, hj⟩ := hij
    rw [hvalue i hi, hvalue j hj]
    exact hsorted.sortedLE.monotone_get hle

theorem percentileSorted_mono (hne : sorted ≠ []) (hsorted : sorted.Pairwise (· ≤ ·)) (hp : 0 ≤ p)
    (hpq : p ≤ q) (hq : q ≤ 1) : percentileSorted sorted p ≤ percentileSorted sorted q := by
  rw [percentileSorted_eq hne, percentileSorted_eq hne]
  exact interpolate_le_interpolate (monotoneOn_sorted hsorted) (rankOf_nonneg hne hp)
    (rankOf_le_rankOf hne hpq) (rankOf_le hne hq)

theorem percentileSorted_zero (hne : sorted ≠ []) :
    percentileSorted sorted 0 = sorted.head hne := by
  have hrank : rankOf sorted 0 = 0 := zero_mul _
  rw [percentileSorted_eq hne, hrank, interpolate_of_floor_eq_ceil (by
    rw [Nat.floor_zero, Nat.ceil_zero]), Nat.floor_zero, List.getD_eq_getElem?_getD,
    ← List.head?_eq_getElem?, List.head?_eq_some_head hne]
  rfl

theorem percentileSorted_one (hne : sorted ≠ []) :
    percentileSorted sorted 1 = sorted.getLast hne := by
  have hrank : rankOf sorted 1 = ((sorted.length - 1 : Nat) : ℚ) := by
    rw [rankOf, length_sub_one hne, one_mul]
  rw [percentileSorted_eq hne, hrank, interpolate_of_floor_eq_ceil (by
    rw [Nat.floor_natCast, Nat.ceil_natCast]), Nat.floor_natCast, List.getD_eq_getElem?_getD,
    ← List.getLast?_eq_getElem?, List.getLast?_eq_some_getLast hne]
  rfl

-- ---------------------------------------------------------------------------
-- The reports
-- ---------------------------------------------------------------------------

namespace RerankerHost

variable {host : RerankerHost} {modelName : Bytes} {documents : List Bytes} {query : Bytes}
  {cfg : RerankerConfig} {iters : Iterations} {r : RerankerTuningResult}

/-- The median is at most the 95th percentile. -/
def PercentilesInOrder (r : RerankerTuningResult) : Prop := r.latencyMs ≤ r.p95LatencyMs

/-- The times that a benchmark evaluates are a sorted sample. -/
theorem times_sorted (h : host.times modelName cfg documents query iters = some sorted) :
    sorted ≠ [] ∧ sorted.Pairwise (· ≤ ·) := by
  unfold times at h
  split at h
  · cases h
  · obtain ⟨model, -, h⟩ := Option.bind_eq_some_iff.mp h
    obtain ⟨measured, -, h⟩ := Option.bind_eq_some_iff.mp h
    split at h
    · cases h
    · rename_i hne
      cases h
      refine ⟨fun hnil => hne ?_, List.pairwise_mergeSort' (· ≤ ·) measured⟩
      have hperm := (List.mergeSort_perm measured (· ≤ ·)).symm
      rw [hnil] at hperm
      exact hperm.eq_nil

theorem stats_inOrder (hne : sorted ≠ []) (hsorted : sorted.Pairwise (· ≤ ·)) (cfg : RerankerConfig)
    (numDocs : Nat) : PercentilesInOrder (stats cfg numDocs sorted) :=
  percentileSorted_mono hne hsorted (by norm_num) (by norm_num) (by norm_num)

/-- A benchmark that did not fail reports its percentiles in order. -/
theorem benchRerankerConfig_inOrder
    (hran : (host.benchRerankerConfig modelName cfg documents query iters).latencyMs <
      failedLatency) :
    PercentilesInOrder (host.benchRerankerConfig modelName cfg documents query iters) := by
  unfold benchRerankerConfig at hran ⊢
  cases htimes : host.times modelName cfg documents query iters with
  | none =>
    rw [htimes] at hran
    exact absurd hran (lt_irrefl _)
  | some sorted =>
    obtain ⟨hne, hsorted⟩ := times_sorted htimes
    exact stats_inOrder hne hsorted cfg documents.length

/-- Of a grid that is measured, those that did not fail. -/
theorem inOrder_of_mem {grid : List RerankerConfig} (hmem : r ∈ grid.map fun cfg =>
      host.benchRerankerConfig modelName cfg documents query iters)
    (hran : r.latencyMs < failedLatency) : PercentilesInOrder r := by
  obtain ⟨cfg, -, rfl⟩ := List.mem_map.mp hmem
  exact benchRerankerConfig_inOrder hran

variable (host)

/-- What a search answers with has its percentiles in order, or was stored before. -/
def Reports (files : AutotuneFiles) (r : RerankerTuningResult) : Prop :=
  PercentilesInOrder r ∨ ∃ id, host.storedTuning files id = some r

/-- The reports of the benchmark where it runs, and of the three searches. -/
structure ReportsInOrder (files : AutotuneFiles) : Prop where
  bench : ∀ modelName cfg documents query iters sorted,
    host.times modelName cfg documents query iters = some sorted →
      PercentilesInOrder (host.benchRerankerConfig modelName cfg documents query iters)
  autotune : ∀ modelName documents query mode objective id saving,
    Honours (host.autotuneImpl files modelName documents query mode objective id saving).1
      (host.Reports files)
  constrained : ∀ modelName mode objective minTokens maxLatencyMs saving,
    Honours (host.autotuneConstrained files modelName mode objective minTokens maxLatencyMs
      saving).1 (host.Reports files)
  autoConfig : ∀ modelName targetLatencyMs objective saving,
    Honours (host.autoConfig files modelName targetLatencyMs objective saving).1
      (host.Reports files)

variable {host} {files : AutotuneFiles}

theorem autotuneImpl_reports (documents : List Bytes) (query : Bytes) (mode : AutotuneMode)
    (objective : Objective) (id : CacheIdentity) (saving : Saving) :
    Honours (host.autotuneImpl files modelName documents query mode objective id saving).1
      (host.Reports files) := by
  intro r hr
  cases hstored : host.storedTuning files id with
  | some stored =>
    rw [autotuneImpl, hstored] at hr
    cases hr
    exact .inr ⟨id, hstored⟩
  | none =>
    obtain ⟨hleads, hran⟩ := (autotuneImpl_ok_iff hstored).mp hr
    exact .inl (inOrder_of_mem hleads.mem hran)

/-- A search under a bound answers with what passes or falls back. -/
theorem search_reports {better : RerankerTuningResult → RerankerTuningResult → Bool}
    {key : RerankerTuningResult → ℚ} (hkey : ∀ r best, better r best = true ↔ key best < key r)
    {results : List RerankerTuningResult}
    (hresults : ∀ r ∈ results, r.latencyMs < failedLatency → PercentilesInOrder r)
    (maxLatencyMs : ℚ) (mode : AutotuneMode) (objective : Objective) (saving : Saving) :
    let best := results.foldl (keepWithin maxLatencyMs better) unmeasured
    Honours (if failedLatency ≤ best.latencyMs
      then host.fallBack files modelName mode objective saving else (.ok best, files)).1
        (host.Reports files) := by
  have hfits : ∀ r ∈ results, passes maxLatencyMs r = true → host.Reports files r :=
    fun r hr hpasses => .inl (hresults r hr (passes_iff.mp hpasses).1)
  refine (honours_search hkey hfits files mode objective saving).mpr (.inr ?_)
  exact (honours_fallBack files mode objective saving _).mp
    (autotuneImpl_reports defaultDocs rerankerBenchQuery mode objective _ saving)

theorem reportsInOrder (host : RerankerHost) (files : AutotuneFiles) :
    host.ReportsInOrder files where
  bench modelName cfg documents query iters sorted htimes := by
    obtain ⟨hne, hsorted⟩ := times_sorted htimes
    rw [benchRerankerConfig, htimes]
    exact stats_inOrder hne hsorted cfg documents.length
  autotune modelName := autotuneImpl_reports
  constrained modelName mode objective minTokens maxLatencyMs saving :=
    search_reports (beats_iff objective) (fun r hr => inOrder_of_mem hr) maxLatencyMs mode objective
      saving
  autoConfig modelName targetLatencyMs objective saving :=
    search_reports (fun r best => decide_eq_true_iff) (fun r hr => inOrder_of_mem hr)
      targetLatencyMs .quick objective saving

end RerankerHost

/-- On a sorted sample, the reads of two percentiles stay inside it, both lie between the minimum
and the maximum, and the greater fraction has the greater percentile, so that the percentiles of
every report are in order. -/
theorem percentiles_law (sorted : List ℚ) (hne : sorted ≠ []) (hsorted : sorted.Pairwise (· ≤ ·))
    (hp : 0 ≤ p) (hpq : p ≤ q) (hq : q ≤ 1) :
    (∃ x y, readPercentile sorted p = .ok x ∧ readPercentile sorted q = .ok y ∧
      sorted.head hne ≤ x ∧ x ≤ y ∧ y ≤ sorted.getLast hne) ∧
    ∀ (host : RerankerHost) (files : AutotuneFiles), host.ReportsInOrder files := by
  refine ⟨⟨percentileSorted sorted p, percentileSorted sorted q,
    readPercentile_eq hne hp (hpq.trans hq), readPercentile_eq hne (hp.trans hpq) hq, ?_,
    percentileSorted_mono hne hsorted hp hpq hq, ?_⟩, RerankerHost.reportsInOrder⟩
  · rw [← percentileSorted_zero hne]
    exact percentileSorted_mono hne hsorted le_rfl hp (hpq.trans hq)
  · rw [← percentileSorted_one hne]
    exact percentileSorted_mono hne hsorted (hp.trans hpq) hq le_rfl

/-- The median and the 95th percentile of three times. -/
theorem percentiles_law_three :
    ∃ x y, readPercentile [10, 20, 40] (1 / 2) = .ok x ∧
      readPercentile [10, 20, 40] (95 / 100) = .ok y ∧ 10 ≤ x ∧ x ≤ y ∧ y ≤ 40 :=
  (percentiles_law [10, 20, 40] (by decide) (by decide +kernel) (by norm_num) (by norm_num)
    (by norm_num)).1

end LibEmbedding
