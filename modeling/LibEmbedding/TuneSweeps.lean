import LibEmbedding.RerankerTuning

/-!
# Tuning sparse and image models

`autotune_bench_sparse.hpp` and `autotune_bench_image.hpp` go through a grid of configurations and
time each one. One keeps the greatest throughput, the other the least latency. Both come to the
first configuration of the least median, but for what takes no time at all, which only the second
one takes.
-/

namespace LibEmbedding

open Foundation

-- ---------------------------------------------------------------------------
-- One configuration
-- ---------------------------------------------------------------------------

/-- A registry, the contexts that can be created from it, and the times of the iterations, where
their calls succeed. -/
structure SweepHost (κ : Type) where
  registry : List TextModelInfo
  cores : Int
  creates : Nat → κ → Bool
  embed : Nat → κ → Nat → Option ℚ

namespace SweepHost

variable {κ : Type} (host : SweepHost κ)

/-- `lembed_find_sparse_model_by_code`, `lembed_find_image_model_by_code` -/
def findModelByCode (modelName : Bytes) : Option Nat :=
  host.registry.findIdx? fun info => info.modelCode = modelName

/-- The times of the iterations that succeed. -/
def times (modelName : Bytes) (cfg : κ) (benchIters : Nat) : List ℚ :=
  match host.findModelByCode modelName with
  | none => []
  | some model =>
    if host.creates model cfg then (List.range benchIters).filterMap (host.embed model cfg) else []

/-- Their median. -/
def p50 (modelName : Bytes) (cfg : κ) (benchIters : Nat) : Option ℚ :=
  let times := host.times modelName cfg benchIters
  if times = [] then none else some (percentileSorted (times.mergeSort (· ≤ ·)) (50 / 100))

end SweepHost

/-- The median as it is reported. -/
def latencyOf (p50 : Option ℚ) : ℚ := p50.getD failedLatency

/-- The throughput of `n` texts or images. -/
def throughputOf (p50 : Option ℚ) (n : Nat) : ℚ :=
  p50.elim 0 fun p50 => if 0 < p50 then 1000 / p50 * n else 0

def sweepIters : AutotuneMode → Nat
  | .quick => 5
  | .full => 15

-- ---------------------------------------------------------------------------
-- Sparse models
-- ---------------------------------------------------------------------------

structure SparseConfig where
  topK : Int
  minWeight : ℚ
  storageFormat : Int
  threads : Int
  batchSize : Int
  deriving DecidableEq

/-- `lembed_sparse_tuning_result_t` -/
structure SparseTuningResult where
  config : SparseConfig
  latencyMs : ℚ
  throughputDocsSec : ℚ
  deriving DecidableEq

/-- `bench_sparse_config` -/
def benchSparseConfig (host : SweepHost SparseConfig) (modelName : Bytes) (cfg : SparseConfig)
    (numDocs benchIters : Nat) : SparseTuningResult :=
  let p50 := host.p50 modelName cfg benchIters
  ⟨cfg, latencyOf p50, throughputOf p50 numDocs⟩

/-- The three loops. -/
def sparseGrid : List SparseConfig :=
  [32, 64, 128].flatMap fun t => [(0 : ℚ), 1 / 100, 5 / 100].flatMap fun w =>
    [0, 1].map fun s => ⟨t, w, s, 4, 256⟩

/-- One result after another. -/
def keepFaster (best r : SparseTuningResult) : SparseTuningResult :=
  if failedLatency ≤ r.latencyMs then best
  else if best.throughputDocsSec < r.throughputDocsSec then r
  else best

def sparseResults (host : SweepHost SparseConfig) (modelName : Bytes) (mode : AutotuneMode) :
    List SparseTuningResult :=
  sparseGrid.map fun cfg => benchSparseConfig host modelName cfg 20 (sweepIters mode)

/-- `lembed_sparse_autotune` -/
def sparseAutotune (host : SweepHost SparseConfig) (modelName : Bytes) (mode : AutotuneMode) :
    Except Status SparseTuningResult :=
  let best := (sparseResults host modelName mode).foldl keepFaster
    ⟨⟨0, 0, 0, 0, 0⟩, failedLatency, 0⟩
  if failedLatency ≤ best.latencyMs then .error .onnxRuntime else .ok best

-- ---------------------------------------------------------------------------
-- Image models
-- ---------------------------------------------------------------------------

structure ImageConfig where
  threads : Int
  batchSize : Int
  deriving DecidableEq

/-- `lembed_image_tuning_result_t` -/
structure ImageTuningResult where
  config : ImageConfig
  latencyMs : ℚ
  throughputDocsSec : ℚ
  deriving DecidableEq

/-- `bench_image_config` -/
def benchImageConfig (host : SweepHost ImageConfig) (modelName : Bytes) (cfg : ImageConfig)
    (nImages benchIters : Nat) : ImageTuningResult :=
  let p50 := host.p50 modelName cfg benchIters
  ⟨cfg, latencyOf p50, throughputOf p50 nImages⟩

def imageThreads (cores : Int) : List Int :=
  let valid := [1, 2, 4, 8].filter fun t => decide (t ≤ cores)
  if valid = [] then [1] else valid

def imageGrid (cores : Int) : List ImageConfig :=
  (imageThreads cores).flatMap fun t => [1, 4, 8, 16].map fun b => ⟨t, b⟩

def imageResults (host : SweepHost ImageConfig) (modelName : Bytes) (mode : AutotuneMode) :
    List ImageTuningResult :=
  (imageGrid host.cores).map fun cfg => benchImageConfig host modelName cfg 16 (sweepIters mode)

/-- `lembed_image_autotune` -/
def imageAutotune (host : SweepHost ImageConfig) (modelName : Bytes) (mode : AutotuneMode) :
    Except Status ImageTuningResult :=
  let best := (imageResults host modelName mode).foldl
    (fun best r => if r.latencyMs < best.latencyMs then r else best) ⟨⟨0, 0⟩, failedLatency, 0⟩
  if failedLatency ≤ best.latencyMs then .error .onnxRuntime else .ok best

-- ---------------------------------------------------------------------------
-- What the sweeps find
-- ---------------------------------------------------------------------------

theorem throughputOf_lt {p q : ℚ} (hp : 0 < p) (hq : 0 < q) {n : Nat} (hn : 0 < n) :
    throughputOf (some p) n < throughputOf (some q) n ↔ -p < -q := by
  have hpos : (0 : ℚ) < n := by exact_mod_cast hn
  simp only [throughputOf, Option.elim_some, if_pos hp, if_pos hq]
  rw [mul_lt_mul_iff_left₀ hpos, div_lt_div_iff_of_pos_left (by norm_num) hp hq, neg_lt_neg_iff]

/-- The loop over the sparse configurations. -/
theorem foldl_keepFaster (results : List SparseTuningResult) (init : SparseTuningResult) :
    results.foldl keepFaster init =
      (leader SparseTuningResult.throughputDocsSec init.throughputDocsSec
        (results.filter fun r => decide (r.latencyMs < failedLatency))).getD init := by
  rw [← foldl_eq_leader]
  induction results generalizing init with
  | nil => rfl
  | cons r results ih =>
    rw [List.foldl_cons, ih]
    by_cases hlatency : r.latencyMs < failedLatency
    · rw [List.filter_cons_of_pos (by simpa using hlatency), List.foldl_cons, keepFaster,
        if_neg (not_le.mpr hlatency)]
    · rw [List.filter_cons_of_neg (by simpa using hlatency), keepFaster,
        if_pos (not_lt.mp hlatency)]

/-- A result tells its latency and its throughput from one median. -/
theorem benchSparseConfig_throughput (host : SweepHost SparseConfig) (modelName : Bytes)
    (cfg : SparseConfig) (numDocs benchIters : Nat)
    (hlatency : (benchSparseConfig host modelName cfg numDocs benchIters).latencyMs
      < failedLatency) :
    (benchSparseConfig host modelName cfg numDocs benchIters).throughputDocsSec =
      throughputOf (some (benchSparseConfig host modelName cfg numDocs benchIters).latencyMs)
        numDocs := by
  cases hp : host.p50 modelName cfg benchIters with
  | none => simp [benchSparseConfig, hp, latencyOf] at hlatency
  | some p => simp [benchSparseConfig, hp, latencyOf]

theorem sparseResults_throughput {host : SweepHost SparseConfig} {modelName : Bytes}
    {mode : AutotuneMode} {r : SparseTuningResult} (hr : r ∈ sparseResults host modelName mode)
    (hlatency : r.latencyMs < failedLatency) :
    r.throughputDocsSec = throughputOf (some r.latencyMs) 20 := by
  obtain ⟨cfg, -, rfl⟩ := List.mem_map.mp hr
  exact benchSparseConfig_throughput host modelName cfg 20 (sweepIters mode) hlatency

/-- The greatest throughput comes with the least latency, of what takes any time. -/
theorem leader_sparseResults (host : SweepHost SparseConfig) (modelName : Bytes)
    (mode : AutotuneMode) :
    leader SparseTuningResult.throughputDocsSec 0
        ((sparseResults host modelName mode).filter fun r => decide (r.latencyMs < failedLatency)) =
      leader (fun r => -r.latencyMs) (-failedLatency)
        ((sparseResults host modelName mode).filter fun r => decide (0 < r.latencyMs)) := by
  have hran : ∀ r ∈ (sparseResults host modelName mode).filter fun r =>
      decide (r.latencyMs < failedLatency),
      r.throughputDocsSec = throughputOf (some r.latencyMs) 20 := by
    intro r hr
    simp only [List.mem_filter, decide_eq_true_eq] at hr
    exact sparseResults_throughput hr.1 hr.2
  have hinstant : ∀ r ∈ (sparseResults host modelName mode).filter fun r =>
      decide (r.latencyMs < failedLatency),
      decide (0 < r.latencyMs) = false → r.throughputDocsSec ≤ 0 := by
    intro r hr hzero
    rw [hran r hr, throughputOf, Option.elim_some, if_neg (by simpa using hzero)]
  have hfailed : ∀ r ∈ (sparseResults host modelName mode).filter fun r =>
      decide (0 < r.latencyMs),
      decide (r.latencyMs < failedLatency) = false → -r.latencyMs ≤ -failedLatency := by
    intro r _ hslow
    exact neg_le_neg (by simpa using hslow)
  rw [← leader_filter hinstant, ← leader_filter hfailed, List.filter_filter, List.filter_filter]
  simp only [Bool.and_comm]
  refine leader_congr (fun r hr => ?_) fun r hr r' hr' => ?_
  · simp only [List.mem_filter, Bool.and_eq_true, decide_eq_true_eq] at hr
    obtain ⟨hmem, hbelow, hpositive⟩ := hr
    rw [sparseResults_throughput hmem hbelow, throughputOf, Option.elim_some, if_pos hpositive]
    exact ⟨by positivity, neg_lt_neg hbelow⟩
  · simp only [List.mem_filter, Bool.and_eq_true, decide_eq_true_eq] at hr hr'
    rw [sparseResults_throughput hr.1 hr.2.1, sparseResults_throughput hr'.1 hr'.2.1]
    exact throughputOf_lt hr.2.2 hr'.2.2 (by norm_num)

/-- A sweep that ends with the leader, or with the sentinel it began with. -/
theorem sweep_leads {ρ : Type} (latencyMs : ρ → ℚ) (unmeasured : ρ)
    (hunmeasured : latencyMs unmeasured = failedLatency) {results : List ρ} {best : ρ}
    (hbest : best =
      (leader (fun r => -latencyMs r) (-failedLatency) results).getD unmeasured) :
    (∀ r, (if failedLatency ≤ latencyMs best then .error .onnxRuntime else .ok best :
        Except Status ρ) = .ok r ↔ Leads (fun r => -latencyMs r) (-failedLatency) results r) ∧
    ((if failedLatency ≤ latencyMs best then .error .onnxRuntime else .ok best :
        Except Status ρ) = .error .onnxRuntime ↔ ∀ r ∈ results, failedLatency ≤ latencyMs r) := by
  subst hbest
  simp only [← leader_eq_some_iff]
  cases hleader : leader (fun r => -latencyMs r) (-failedLatency) results with
  | none =>
    have hslow := leader_eq_none_iff.mp hleader
    simp only [Option.getD_none, hunmeasured, le_refl, if_true, reduceCtorEq, implies_true,
      true_and, true_iff]
    exact fun r hr => neg_le_neg_iff.mp (hslow r hr)
  | some best =>
    have hlead := leader_eq_some_iff.mp hleader
    have hbelow : latencyMs best < failedLatency := neg_lt_neg_iff.mp hlead.above
    rw [Option.getD_some, if_neg (not_le.mpr hbelow)]
    refine ⟨fun r => by simp, ?_⟩
    simp only [reduceCtorEq, false_iff]
    exact fun hslow => absurd (hslow best hlead.mem) (not_le.mpr hbelow)

/-- The sparse tuner reports the first configuration of the least median among those that took any
time and stayed below the sentinel, and fails where there is none. -/
theorem sparseAutotune_leads (host : SweepHost SparseConfig) (modelName : Bytes)
    (mode : AutotuneMode) :
    (∀ r, sparseAutotune host modelName mode = .ok r ↔
      Leads (fun r => -r.latencyMs) (-failedLatency)
        ((sparseResults host modelName mode).filter fun r => decide (0 < r.latencyMs)) r) ∧
    (sparseAutotune host modelName mode = .error .onnxRuntime ↔
      ∀ r ∈ sparseResults host modelName mode, 0 < r.latencyMs → failedLatency ≤ r.latencyMs) := by
  have hbest := foldl_keepFaster (sparseResults host modelName mode) ⟨⟨0, 0, 0, 0, 0⟩,
    failedLatency, 0⟩
  rw [leader_sparseResults] at hbest
  have hsweep := sweep_leads SparseTuningResult.latencyMs _ rfl hbest
  simp only [List.mem_filter, decide_eq_true_eq, and_imp] at hsweep
  exact hsweep

/-- The image tuner does so without leaving out what took no time. -/
theorem imageAutotune_leads (host : SweepHost ImageConfig) (modelName : Bytes)
    (mode : AutotuneMode) :
    (∀ r, imageAutotune host modelName mode = .ok r ↔
      Leads (fun r => -r.latencyMs) (-failedLatency) (imageResults host modelName mode) r) ∧
    (imageAutotune host modelName mode = .error .onnxRuntime ↔
      ∀ r ∈ imageResults host modelName mode, failedLatency ≤ r.latencyMs) := by
  refine sweep_leads ImageTuningResult.latencyMs ⟨⟨0, 0⟩, failedLatency, 0⟩ rfl ?_
  have hlatency (r r' : ImageTuningResult) : r.latencyMs < r'.latencyMs ↔
      -r'.latencyMs < -r.latencyMs := neg_lt_neg_iff.symm
  simp only [hlatency]
  exact foldl_eq_leader _ _

end LibEmbedding
