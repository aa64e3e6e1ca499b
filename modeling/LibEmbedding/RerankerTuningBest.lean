import LibEmbedding.RerankerTuningConstraints

/-!
# What the tuning of a reranker finds

The search starts from a result that stands for failure, and the answer is refused where its
latency is that of a failure. Both bounds are within reach of what is measured.
-/

namespace LibEmbedding

open Foundation

namespace RerankerHost

variable (host : RerankerHost) (modelName : Bytes) (documents : List Bytes) (query : Bytes)
  (mode : AutotuneMode)

/-- What a configuration of the grid comes to, where it runs at all. -/
def Measured (r : RerankerTuningResult) : Prop :=
  ∃ cfg ∈ rerankerGrid (validThreads host.machine.logicalCores mode) (rerankerBatches mode)
      (rerankerTokens mode),
    ∃ sorted, host.times modelName cfg documents query (searchIterations mode) = some sorted ∧
      r = stats cfg documents.length sorted

/-- A measured result with the least score of them all. -/
structure BestMeasured (objective : Objective) (r : RerankerTuningResult) : Prop where
  measured : host.Measured modelName documents query mode r
  least : ∀ r', host.Measured modelName documents query mode r' →
    scoreRerankerConfig r objective ≤ scoreRerankerConfig r' objective

/-- The score a search starts with, which is that of every failure. -/
def sentinelScore : Objective → ℚ
  | .latency => 999999 / 2
  | .throughput => 999999
  | .balanced => 999999 / 2 + 1000
  | .memory => 999999

variable {host modelName documents query mode}

theorem unmeasured_score (objective : Objective) :
    scoreRerankerConfig unmeasured objective = sentinelScore objective := by
  cases objective with
  | latency => norm_num [scoreRerankerConfig, unmeasured, failedLatency, sentinelScore]
  | throughput => norm_num [scoreRerankerConfig, unmeasured, sentinelScore]
  | balanced => norm_num [scoreRerankerConfig, unmeasured, failedLatency, sentinelScore]
  | memory => norm_num [scoreRerankerConfig, unmeasured, failedLatency, sentinelScore]

theorem failed_score (cfg : RerankerConfig) (objective : Objective) :
    scoreRerankerConfig (failed cfg) objective = sentinelScore objective :=
  unmeasured_score objective

/-- Of the results of the grid, those below the sentinel are measured. -/
theorem measured_of_mem (hmem : r ∈ host.gridResults modelName documents query mode)
    (hbelow : scoreRerankerConfig r objective < sentinelScore objective) :
    host.Measured modelName documents query mode r := by
  obtain ⟨cfg, hcfg, rfl⟩ := List.mem_map.mp hmem
  unfold benchRerankerConfig at hbelow ⊢
  cases htimes : host.times modelName cfg documents query (searchIterations mode) with
  | none =>
    rw [htimes] at hbelow
    exact absurd (failed_score cfg objective) hbelow.ne
  | some sorted => exact ⟨cfg, hcfg, sorted, htimes, rfl⟩

theorem Measured.mem (h : host.Measured modelName documents query mode r) :
    r ∈ host.gridResults modelName documents query mode := by
  obtain ⟨cfg, hcfg, sorted, htimes, rfl⟩ := h
  refine List.mem_map.mpr ⟨cfg, hcfg, ?_⟩
  rw [benchRerankerConfig, htimes]

/-- On a miss the answer is the leader of the grid, where it is below the latency of a
failure. -/
theorem autotuneImpl_ok_iff {files : AutotuneFiles} {id : CacheIdentity}
    (hmiss : host.storedTuning files id = none) :
    (host.autotuneImpl files modelName documents query mode objective id saving).1 = .ok r ↔
      Leads (-scoreRerankerConfig · objective) (-sentinelScore objective)
        (host.gridResults modelName documents query mode) r ∧ r.latencyMs < failedLatency := by
  rw [autotuneImpl, hmiss]
  dsimp only
  rw [searchAll_eq, unmeasured_score]
  cases hleader : leader (-scoreRerankerConfig · objective) (-sentinelScore objective)
      (host.gridResults modelName documents query mode) with
  | none =>
    have hfailed : failedLatency ≤ unmeasured.latencyMs := le_rfl
    rw [Option.getD_none, if_pos hfailed]
    constructor
    · intro h
      cases h
    · rintro ⟨hleads, -⟩
      rw [leader_eq_some_iff.mpr hleads] at hleader
      cases hleader
  | some best =>
    have hleads := leader_eq_some_iff.mp hleader
    rw [Option.getD_some]
    split
    · rename_i hfailed
      constructor
      · intro h
        cases h
      · rintro ⟨hleads', hran⟩
        obtain rfl := hleads.unique hleads'
        exact absurd hran (not_lt.mpr hfailed)
    · rename_i hran
      constructor
      · intro h
        cases h
        exact ⟨hleads, not_le.mp hran⟩
      · rintro ⟨hleads', -⟩
        rw [hleads.unique hleads']

theorem bestMeasured_of_leads (h : Leads (-scoreRerankerConfig · objective)
    (-sentinelScore objective) (host.gridResults modelName documents query mode) r) :
    host.BestMeasured modelName documents query mode objective r :=
  ⟨measured_of_mem h.mem (neg_lt_neg_iff.mp h.above),
    fun _ hmeasured => neg_le_neg_iff.mp (h.max hmeasured.mem)⟩

end RerankerHost

/-- The tuning answers with a best measured configuration exactly when some configuration
scores below the sentinel, and the first of the best is not as slow as a failure. -/
theorem autotuneImpl_best_iff (host : RerankerHost) (files : AutotuneFiles) (modelName : Bytes)
    (documents : List Bytes) (query : Bytes) (mode : AutotuneMode) (objective : Objective)
    (id : CacheIdentity) (saving : Saving) (hmiss : host.storedTuning files id = none) :
    (∃ r, (host.autotuneImpl files modelName documents query mode objective id saving).1 = .ok r ∧
        host.BestMeasured modelName documents query mode objective r) ↔
      ∃ r, Leads (-scoreRerankerConfig · objective) (-RerankerHost.sentinelScore objective)
        (host.gridResults modelName documents query mode) r ∧ r.latencyMs < failedLatency := by
  simp only [RerankerHost.autotuneImpl_ok_iff hmiss]
  constructor
  · rintro ⟨r, hanswer, -⟩
    exact ⟨r, hanswer⟩
  · rintro ⟨r, hleads, hran⟩
    exact ⟨r, ⟨hleads, hran⟩, RerankerHost.bestMeasured_of_leads hleads⟩

/-- The identity of a tuning on a corpus of one document. -/
def oneDocument : CacheIdentity :=
  rerankerCacheIdentity (ascii "BAAI/bge-reranker-base") (ascii "custom")
    (corpusFingerprint [ascii "a"]) .throughput .quick

/-- A machine on which every iteration takes a tenth of a second tunes to what it measures. -/
theorem autotuneImpl_best_iff_steady :
    ∃ r, (RerankerHost.steady.autotuneImpl [] (ascii "BAAI/bge-reranker-base") [ascii "a"]
        (ascii "b") .quick .throughput oneDocument .stored).1 = .ok r ∧
      RerankerHost.steady.BestMeasured (ascii "BAAI/bge-reranker-base") [ascii "a"] (ascii "b")
        .quick .throughput r := by
  have hanswer : (RerankerHost.steady.autotuneImpl [] (ascii "BAAI/bge-reranker-base")
      [ascii "a"] (ascii "b") .quick .throughput oneDocument .stored).1 =
        .ok ⟨⟨1, 4, 64⟩, 10, 100, 0, 100⟩ := by
    decide +kernel
  exact (autotuneImpl_best_iff RerankerHost.steady [] (ascii "BAAI/bge-reranker-base")
    [ascii "a"] (ascii "b") .quick .throughput oneDocument .stored rfl).mpr
      ⟨_, (RerankerHost.autotuneImpl_ok_iff rfl).mp hanswer⟩

/-- A machine on which every iteration takes a second. -/
def RerankerHost.slow : RerankerHost := { steady with trial := fun _ => some [1000] }

/-- One document a second scores a million, and what was measured is reported as a failure. -/
theorem autotuneImpl_refuses_measured :
    RerankerHost.slow.storedTuning [] oneDocument = none ∧
    (∃ cfg ∈ rerankerGrid (validThreads RerankerHost.slow.machine.logicalCores .quick)
        (rerankerBatches .quick) (rerankerTokens .quick),
      ∃ sorted, RerankerHost.slow.times (ascii "BAAI/bge-reranker-base") cfg [ascii "a"]
        (ascii "b") (searchIterations .quick) = some sorted ∧ ∀ t ∈ sorted, 0 < t) ∧
    (RerankerHost.slow.autotuneImpl [] (ascii "BAAI/bge-reranker-base") [ascii "a"]
      (ascii "b") .quick .throughput oneDocument .stored).1 = .error .onnxRuntime := by
  refine ⟨rfl, ⟨⟨1, 4, 64⟩, by decide +kernel, [1000], by decide +kernel, ?_⟩, by decide +kernel⟩
  intro t ht
  rw [List.mem_singleton.mp ht]
  norm_num

end LibEmbedding
