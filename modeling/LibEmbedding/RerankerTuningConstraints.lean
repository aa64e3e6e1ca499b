import LibEmbedding.RerankerTuning

/-!
# Tuning a reranker under constraints

The constrained searches fall back to the unconstrained tuning. What they return meets the
constraints exactly when a configuration of theirs does, or the tuning they fall back to.
-/

namespace LibEmbedding

open Foundation

-- ---------------------------------------------------------------------------
-- What the searches keep
-- ---------------------------------------------------------------------------

/-- A result that a search under a bound considers. -/
def passes (maxLatencyMs : ℚ) (r : RerankerTuningResult) : Bool :=
  r.latencyMs < failedLatency && r.p95LatencyMs ≤ maxLatencyMs

theorem passes_iff :
    passes maxLatencyMs r = true ↔ r.latencyMs < failedLatency ∧ r.p95LatencyMs ≤ maxLatencyMs := by
  rw [passes, Bool.and_eq_true, decide_eq_true_eq, decide_eq_true_eq]

/-- A search under a bound ends with the leader of what passes. -/
theorem foldl_keepWithin {better : RerankerTuningResult → RerankerTuningResult → Bool}
    {key : RerankerTuningResult → ℚ} (hkey : ∀ r best, better r best = true ↔ key best < key r)
    (maxLatencyMs : ℚ) (results : List RerankerTuningResult) :
    results.foldl (keepWithin maxLatencyMs better) unmeasured =
      (leader key (key unmeasured) (results.filter (passes maxLatencyMs))).getD unmeasured := by
  rw [← foldl_eq_leader, List.foldl_filter]
  congr 1
  funext best r
  unfold keepWithin
  by_cases hpasses : passes maxLatencyMs r = true
  · obtain ⟨hran, hwithin⟩ := passes_iff.mp hpasses
    rw [if_neg (not_le.mpr hran), if_neg (not_lt.mpr hwithin), if_pos hpasses]
    exact if_congr (hkey r best) rfl rfl
  · rw [if_neg hpasses]
    split
    · rfl
    · rename_i hran
      rw [if_pos]
      by_contra hwithin
      exact hpasses (passes_iff.mpr ⟨not_le.mp hran, not_lt.mp hwithin⟩)

/-- Under a bound nothing that failed is kept, and something is kept where something passes and
beats the start. -/
theorem keepWithin_spec {better : RerankerTuningResult → RerankerTuningResult → Bool}
    {key : RerankerTuningResult → ℚ} (hkey : ∀ r best, better r best = true ↔ key best < key r)
    (maxLatencyMs : ℚ) (results : List RerankerTuningResult) :
    (failedLatency ≤ (results.foldl (keepWithin maxLatencyMs better) unmeasured).latencyMs ∧
        ∀ r ∈ results, passes maxLatencyMs r = true → ¬key unmeasured < key r) ∨
      (results.foldl (keepWithin maxLatencyMs better) unmeasured ∈ results ∧
        passes maxLatencyMs (results.foldl (keepWithin maxLatencyMs better) unmeasured) = true ∧
        key unmeasured < key (results.foldl (keepWithin maxLatencyMs better) unmeasured)) := by
  rw [foldl_keepWithin hkey]
  cases hleader : leader key (key unmeasured) (results.filter (passes maxLatencyMs)) with
  | none =>
    refine .inl ⟨le_rfl, fun r hr hpasses => ?_⟩
    exact not_lt.mpr (leader_eq_none_iff.mp hleader r (List.mem_filter.mpr ⟨hr, hpasses⟩))
  | some best =>
    have hleads := leader_eq_some_iff.mp hleader
    obtain ⟨hmem, hpasses⟩ := List.mem_filter.mp hleads.mem
    exact .inr ⟨hmem, hpasses, hleads.above⟩

namespace RerankerHost

variable (host : RerankerHost) (modelName : Bytes)

/-- What the unconstrained search measures. -/
def allResults (mode : AutotuneMode) : List RerankerTuningResult :=
  (rerankerGrid (validThreads host.machine.logicalCores mode) (rerankerBatches mode)
    (rerankerTokens mode)).map fun cfg => host.benchRerankerConfig modelName cfg defaultDocs
      rerankerBenchQuery (searchIterations mode)

/-- What the unconstrained search measures on a corpus. -/
def gridResults (documents : List Bytes) (query : Bytes) (mode : AutotuneMode) :
    List RerankerTuningResult :=
  (rerankerGrid (validThreads host.machine.logicalCores mode) (rerankerBatches mode)
    (rerankerTokens mode)).map fun cfg => host.benchRerankerConfig modelName cfg documents
      query (searchIterations mode)

theorem searchAll_eq (documents : List Bytes) (query : Bytes) (mode : AutotuneMode)
    (objective : Objective) : host.searchAll modelName documents query mode objective =
      (leader (-scoreRerankerConfig · objective) (-scoreRerankerConfig unmeasured objective)
        (host.gridResults modelName documents query mode)).getD unmeasured := by
  rw [← foldl_eq_leader, searchAll]
  congr 1
  funext best r
  exact if_congr neg_lt_neg_iff.symm rfl rfl

theorem gridResults_default (mode : AutotuneMode) :
    host.gridResults modelName defaultDocs rerankerBenchQuery mode =
      host.allResults modelName mode := rfl

-- ---------------------------------------------------------------------------
-- Constraints
-- ---------------------------------------------------------------------------

/-- The configuration runs on the model within the bound, and so it is reported. -/
structure Fits (iters : Iterations) (maxLatencyMs : ℚ) (r : RerankerTuningResult) : Prop where
  measured : ∃ sorted, host.times modelName r.config defaultDocs rerankerBenchQuery iters =
    some sorted ∧ percentileSorted sorted (95 / 100) ≤ maxLatencyMs
  reported : r.p95LatencyMs ≤ maxLatencyMs

/-- Whatever is returned fits. -/
def Honours (answer : Except Status RerankerTuningResult) (fits : RerankerTuningResult → Prop) :
    Prop :=
  ∀ r, answer = .ok r → fits r

/-- What the fallback can return fits: a stored tuning, or where none is stored the leader of the
unconstrained search. -/
def FallBackFits (files : AutotuneFiles) (mode : AutotuneMode) (objective : Objective)
    (fits : RerankerTuningResult → Prop) : Prop :=
  let canon := host.canonicalRerankerId modelName
  match host.storedTuning files (defaultIdentity canon objective mode) with
  | some stored => fits stored
  | none => ∀ r, Leads (-scoreRerankerConfig · objective) (-scoreRerankerConfig unmeasured objective)
      (host.allResults canon mode) r → r.latencyMs < failedLatency → fits r

/-- A configuration with enough tokens that fits. -/
def Constrained (mode : AutotuneMode) (minTokens : Int) (maxLatencyMs : ℚ)
    (r : RerankerTuningResult) : Prop :=
  minTokens ≤ r.config.maxTokens ∧
    host.Fits modelName (searchIterations mode) maxLatencyMs r

/-- A configuration of the constrained grid passes and beats what stands for failure. -/
def ConstrainedFound (mode : AutotuneMode) (objective : Objective) (minTokens : Int)
    (maxLatencyMs : ℚ) : Prop :=
  ∃ r ∈ host.constrainedResults modelName mode minTokens, passes maxLatencyMs r = true ∧
    scoreRerankerConfig r objective < scoreRerankerConfig unmeasured objective

/-- A configuration of the budget's grid passes, and its rate is not zero. -/
def BudgetFound (targetLatencyMs : ℚ) : Prop :=
  ∃ r ∈ host.budgetResults modelName, passes targetLatencyMs r = true ∧ 0 < r.throughputDocsSec

variable {host modelName}

theorem fits_bench (h : passes maxLatencyMs (host.benchRerankerConfig modelName cfg defaultDocs
    rerankerBenchQuery iters) = true) :
    (host.benchRerankerConfig modelName cfg defaultDocs rerankerBenchQuery iters).config = cfg ∧
      host.Fits modelName iters maxLatencyMs
        (host.benchRerankerConfig modelName cfg defaultDocs rerankerBenchQuery iters) := by
  obtain ⟨hran, hwithin⟩ := passes_iff.mp h
  unfold benchRerankerConfig at hran hwithin ⊢
  cases htimes : host.times modelName cfg defaultDocs rerankerBenchQuery iters with
  | none =>
    rw [htimes] at hran
    exact absurd hran (lt_irrefl _)
  | some sorted =>
    rw [htimes] at hwithin
    exact ⟨rfl, ⟨sorted, htimes, hwithin⟩, hwithin⟩

theorem le_of_mem_validTokens (h : k ∈ validTokens minTokens mode) : minTokens ≤ k := by
  unfold validTokens at h
  dsimp only at h
  split at h
  · exact (List.mem_singleton.mp h).ge
  · exact of_decide_eq_true (List.mem_filter.mp h).2

theorem mem_rerankerGrid (h : cfg ∈ rerankerGrid threads batches tokens) :
    cfg.maxTokens ∈ tokens := by
  obtain ⟨t, -, ht⟩ := List.mem_flatMap.mp h
  obtain ⟨b, -, hb⟩ := List.mem_flatMap.mp ht
  obtain ⟨k, hk, rfl⟩ := List.mem_map.mp hb
  exact hk

/-- What passes the constrained search meets the constraints. -/
theorem constrained_of_mem (hr : r ∈ host.constrainedResults modelName mode minTokens)
    (hpasses : passes maxLatencyMs r = true) :
    host.Constrained modelName mode minTokens maxLatencyMs r := by
  obtain ⟨cfg, hcfg, rfl⟩ := List.mem_map.mp hr
  obtain ⟨hconfig, hfits⟩ := fits_bench hpasses
  refine ⟨?_, hfits⟩
  rw [hconfig]
  exact le_of_mem_validTokens (mem_rerankerGrid hcfg)

theorem fits_of_mem (hr : r ∈ host.budgetResults modelName)
    (hpasses : passes targetLatencyMs r = true) :
    host.Fits modelName budgetIterations targetLatencyMs r := by
  obtain ⟨cfg, -, rfl⟩ := List.mem_map.mp hr
  exact (fits_bench hpasses).2

/-- The fallback honours what the tuning it returns meets. -/
theorem honours_fallBack (files : AutotuneFiles) (mode : AutotuneMode) (objective : Objective)
    (saving : Saving) (fits : RerankerTuningResult → Prop) :
    Honours (host.fallBack files modelName mode objective saving).1 fits ↔
      host.FallBackFits modelName files mode objective fits := by
  unfold fallBack autotuneImpl FallBackFits
  dsimp only
  cases hstored : host.storedTuning files
      (defaultIdentity (host.canonicalRerankerId modelName) objective mode) with
  | some stored =>
    constructor
    · exact fun h => h stored rfl
    · rintro hfits r hr
      cases hr
      exact hfits
  | none =>
    dsimp only
    rw [searchAll_eq, gridResults_default]
    cases hleader : leader (-scoreRerankerConfig · objective)
        (-scoreRerankerConfig unmeasured objective)
        (host.allResults (host.canonicalRerankerId modelName) mode) with
    | none =>
      refine iff_of_true ?_ fun r hleads _ => ?_
      · have hfailed : failedLatency ≤ unmeasured.latencyMs := le_rfl
        rw [Option.getD_none, if_pos hfailed]
        exact nofun
      · rw [leader_eq_some_iff.mpr hleads] at hleader
        cases hleader
    | some best =>
      have hleads := leader_eq_some_iff.mp hleader
      rw [Option.getD_some]
      by_cases hfailed : failedLatency ≤ best.latencyMs
      · rw [if_pos hfailed]
        refine iff_of_true nofun fun r hr hran => ?_
        obtain rfl := hleads.unique hr
        exact absurd hran (not_lt.mpr hfailed)
      · rw [if_neg hfailed]
        constructor
        · rintro h r hr -
          obtain rfl := hleads.unique hr
          exact h best rfl
        · rintro h r hr
          cases hr
          exact h best hleads (not_le.mp hfailed)

/-- The lesser score is the greater key. -/
theorem beats_iff (objective : Objective) (r best : RerankerTuningResult) :
    decide (scoreRerankerConfig r objective < scoreRerankerConfig best objective) = true ↔
      -scoreRerankerConfig best objective < -scoreRerankerConfig r objective := by
  rw [decide_eq_true_eq, neg_lt_neg_iff]

/-- A search under a bound honours what its own results meet, or what the fallback returns. -/
theorem honours_search {better : RerankerTuningResult → RerankerTuningResult → Bool}
    {key : RerankerTuningResult → ℚ} (hkey : ∀ r best, better r best = true ↔ key best < key r)
    {fits : RerankerTuningResult → Prop} {results : List RerankerTuningResult}
    (hfits : ∀ r ∈ results, passes maxLatencyMs r = true → fits r) (files : AutotuneFiles)
    (mode : AutotuneMode) (objective : Objective) (saving : Saving) :
    let best := results.foldl (keepWithin maxLatencyMs better) unmeasured
    Honours (if failedLatency ≤ best.latencyMs
      then host.fallBack files modelName mode objective saving else (.ok best, files)).1 fits ↔
        (∃ r ∈ results, passes maxLatencyMs r = true ∧ key unmeasured < key r) ∨
          host.FallBackFits modelName files mode objective fits := by
  intro best
  rcases keepWithin_spec hkey maxLatencyMs results with ⟨hfailed, hnone⟩ | ⟨hmem, hpasses, hbeats⟩
  · rw [if_pos hfailed, honours_fallBack, or_iff_right]
    rintro ⟨r, hr, hpasses, hbeats⟩
    exact hnone r hr hpasses hbeats
  · rw [if_neg (not_le.mpr (passes_iff.mp hpasses).1)]
    refine iff_of_true ?_ (.inl ⟨best, hmem, hpasses, hbeats⟩)
    intro r hr
    cases hr
    exact hfits best hmem hpasses

/-- A machine on which every iteration takes a tenth of a second. -/
def steady : RerankerHost where
  registry := [{
    modelName := ascii "BAAI/bge-reranker-base"
    modelCode := ascii "BAAI/bge-reranker-base"
    plainCode := by decide
    modelFile := ascii "onnx/model.onnx"
    dim := 0, maxTokens := 512, pooling := 0, quantization := .none }]
  machine := {
    logicalCores := 8, physicalCores := 4, cpuBrand := ascii "cpu", brandSafe := cpu_brandSafe
    ortMajor := 1, ortMinor := 20, versionMajor := 1, versionMinor := 11 }
  autotuneDir := ascii "autotune"
  trial _ := some [100]

end RerankerHost

end LibEmbedding
