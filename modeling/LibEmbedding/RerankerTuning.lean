import LibEmbedding.TextTuning

/-!
# Tuning a reranker

`autotune_bench_reranker.hpp`: the benchmark of one configuration, the unconstrained search with
its cache, the search under constraints and the one for a latency budget. Failures carry a
latency that no measurement is to reach.
-/

namespace LibEmbedding

open Foundation

/-- `lembed_objective_t` -/
inductive Objective where
  | latency
  | throughput
  | balanced
  | memory
  deriving DecidableEq, Repr

def Objective.code : Objective → Int
  | .latency => 0
  | .throughput => 1
  | .balanced => 2
  | .memory => 3

structure RerankerConfig where
  threads : Int
  batchSize : Int
  maxTokens : Int
  deriving DecidableEq

/-- `lembed_reranker_tuning_result_t` -/
structure RerankerTuningResult where
  config : RerankerConfig
  throughputDocsSec : ℚ
  latencyMs : ℚ
  memoryMb : ℚ
  p95LatencyMs : ℚ
  deriving DecidableEq

-- ---------------------------------------------------------------------------
-- Corpus
-- ---------------------------------------------------------------------------

def rerankerWords : List Bytes := [
  "the", "quick", "brown", "fox", "jumps", "over", "lazy", "dog",
  "machine", "learning", "data", "model", "system", "algorithm",
  "search", "query", "document", "text", "information", "result",
  "process", "analysis", "method", "approach", "technique",
  "application", "performance", "evaluation", "research", "study"].map ascii

/-- `generate_synthetic_doc` -/
def generateSyntheticDoc (targetTokens seed : Nat) : Bytes :=
  (ascii " ").intercalate <| (List.range (max 1 (targetTokens * 3 / 4))).map fun i =>
    rerankerWords.getD ((seed + i) % rerankerWords.length) []

/-- `generate_synthetic_corpus` -/
def generateSyntheticCorpus (numDocs : Nat) : List Bytes :=
  (List.range numDocs).map fun i => generateSyntheticDoc 256 (i + 1)

/-- `reranker_bench_query` -/
def rerankerBenchQuery : Bytes := ascii "What is deep learning?"

-- ---------------------------------------------------------------------------
-- The stored result
-- ---------------------------------------------------------------------------

/-- `reranker_cache_identity` -/
def rerankerCacheIdentity (modelName variant corpus : Bytes) (objective : Objective)
    (mode : AutotuneMode) : CacheIdentity where
  model := modelName
  variant
  corpus
  objective := objective.code
  mode := mode.code

/-- `get_reranker_cache_path` -/
def rerankerCachePath (machine : Machine) (dir : Bytes) (id : CacheIdentity) : Bytes :=
  getCachePath machine dir id.model (ascii "reranker") id.variantKey

/-- The document that `write_reranker_cache` writes. -/
def rerankerCacheDocument (cores : Int) (id : CacheIdentity) (result : RerankerTuningResult) :
    Bytes :=
  entry id [
    numberLine (ascii "cores") (showInt cores) false,
    numberLine (ascii "threads") (showInt result.config.threads) false,
    numberLine (ascii "batch_size") (showInt result.config.batchSize) false,
    numberLine (ascii "max_tokens") (showInt result.config.maxTokens) false,
    numberLine (ascii "throughput_docs_sec") (showDouble result.throughputDocsSec) false,
    numberLine (ascii "latency_ms") (showDouble result.latencyMs) false,
    numberLine (ascii "p95_latency_ms") (showDouble result.p95LatencyMs) false,
    numberLine (ascii "memory_mb") (showDouble result.memoryMb) true]

/-- The variables of the loop over the lines. -/
structure RerankerTuningRead where
  result : RerankerTuningResult := ⟨⟨0, 0, 0⟩, 0, 0, 0, 0⟩
  found : Nat := 0

def RerankerTuningRead.readLine (st : RerankerTuningRead) (line : Bytes) : RerankerTuningRead :=
  let config := st.result.config
  match jsonInt line (ascii "threads") with
  | some threads => ⟨{ st.result with config := { config with threads } }, st.found + 1⟩
  | none => match jsonInt line (ascii "batch_size") with
    | some batchSize => ⟨{ st.result with config := { config with batchSize } }, st.found + 1⟩
    | none => match jsonInt line (ascii "max_tokens") with
      | some maxTokens => ⟨{ st.result with config := { config with maxTokens } }, st.found + 1⟩
      | none => match jsonNumber line (ascii "throughput_docs_sec") with
        | some throughputDocsSec => ⟨{ st.result with throughputDocsSec }, st.found + 1⟩
        | none => match jsonNumber line (ascii "latency_ms") with
          | some latencyMs => ⟨{ st.result with latencyMs }, st.found + 1⟩
          | none => match jsonNumber line (ascii "p95_latency_ms") with
            | some p95LatencyMs => ⟨{ st.result with p95LatencyMs }, st.found + 1⟩
            | none => match jsonNumber line (ascii "memory_mb") with
              | some memoryMb => ⟨{ st.result with memoryMb }, st.found + 1⟩
              | none => st

def rerankerTuningFields : Nat := 7

/-- `read_reranker_cache` on what the file holds. -/
def readRerankerCache (content : Bytes) (id : CacheIdentity) : Option RerankerTuningResult :=
  if CacheIdentity.matches content id = true then
    let st := (linesOf content).foldl RerankerTuningRead.readLine {}
    if st.found < rerankerTuningFields then none else some st.result
  else none

-- ---------------------------------------------------------------------------
-- One configuration
-- ---------------------------------------------------------------------------

/-- `percentile_sorted` -/
def percentileSorted (sorted : List ℚ) (pct : ℚ) : ℚ :=
  match sorted with
  | [] => 0
  | [x] => x
  | sorted =>
    let rank := pct * ((sorted.length : ℚ) - 1)
    let lo := rank.floor.toNat
    let hi := rank.ceil.toNat
    if lo = hi then sorted.getD lo 0
    else sorted.getD lo 0 + (sorted.getD hi 0 - sorted.getD lo 0) * (rank - lo)

/-- The latency of what failed. -/
def failedLatency : ℚ := 999999

/-- What is timed: a context of a registry entry with some options, and the iterations. -/
structure RerankerTrial where
  model : Nat
  config : RerankerConfig
  documents : List Bytes
  query : Bytes
  warmupIters : Nat
  benchIters : Nat

/-- The registry of rerankers, the directory of the cache, and the measurements: the times of the
iterations that succeed, where the context can be created. -/
structure RerankerHost where
  registry : List TextModelInfo
  machine : Machine
  autotuneDir : Bytes
  trial : RerankerTrial → Option (List ℚ)

/-- How often a configuration is warmed up and timed. -/
structure Iterations where
  warmup : Nat
  bench : Nat

namespace RerankerHost

variable (host : RerankerHost)

/-- The entry that a benchmark runs: the first one with that name or code. -/
def benchModel (modelName : Bytes) : Option Nat :=
  host.registry.findIdx? fun info => info.modelName = modelName || info.modelCode = modelName

/-- `lembed_resolve_reranker_model` -/
def resolveRerankerModel (model : Bytes) : Option Nat :=
  (host.registry.findIdx? fun info => info.modelCode = model).or
    (host.registry.findIdx? fun info => info.modelName = model)

/-- `canonical_reranker_id` -/
def canonicalRerankerId (model : Bytes) : Bytes :=
  ((host.resolveRerankerModel model).bind (host.registry[·]?)).elim model (·.modelCode)

/-- The times of a configuration, sorted, where there are any. -/
def times (modelName : Bytes) (cfg : RerankerConfig) (documents : List Bytes) (query : Bytes)
    (iters : Iterations) : Option (List ℚ) := do
  if documents = [] then none
  else
    let model ← host.benchModel modelName
    let times ← host.trial ⟨model, cfg, documents, query, iters.warmup, iters.bench⟩
    if times = [] then none else some (times.mergeSort (· ≤ ·))

def failed (cfg : RerankerConfig) : RerankerTuningResult := ⟨cfg, 0, failedLatency, 0, 0⟩

/-- What a configuration comes to by its times. -/
def stats (cfg : RerankerConfig) (numDocs : Nat) (sorted : List ℚ) : RerankerTuningResult :=
  let p50 := percentileSorted sorted (50 / 100)
  { config := cfg
    throughputDocsSec := if 0 < p50 then 1000 / p50 * numDocs else 0
    latencyMs := p50
    memoryMb := 0
    p95LatencyMs := percentileSorted sorted (95 / 100) }

/-- `bench_reranker_config` -/
def benchRerankerConfig (modelName : Bytes) (cfg : RerankerConfig) (documents : List Bytes)
    (query : Bytes) (iters : Iterations) : RerankerTuningResult :=
  match host.times modelName cfg documents query iters with
  | none => failed cfg
  | some sorted => stats cfg documents.length sorted

end RerankerHost

/-- `score_reranker_config`: the lower the better. -/
def scoreRerankerConfig (r : RerankerTuningResult) : Objective → ℚ
  | .latency => r.latencyMs + (r.p95LatencyMs - r.latencyMs) / 2
  | .throughput =>
    if 0 < r.throughputDocsSec then 1 / r.throughputDocsSec * 1000000 else 999999
  | .balanced => r.latencyMs / 2 + 1 / (r.throughputDocsSec + 1) * 1000
  | .memory => if 0 < r.memoryMb then r.memoryMb else r.latencyMs

-- ---------------------------------------------------------------------------
-- The searches
-- ---------------------------------------------------------------------------

/-- What a search starts with. -/
def unmeasured : RerankerTuningResult := ⟨⟨0, 0, 0⟩, 0, failedLatency, 0, 0⟩

def rerankerThreads : AutotuneMode → List Int
  | .quick => [1, 4, 8]
  | .full => [1, 2, 4, 8]

def rerankerBatches : AutotuneMode → List Int
  | .quick => [4, 16]
  | .full => [4, 8, 16]

def rerankerTokens : AutotuneMode → List Int
  | .quick => [64, 256]
  | .full => [32, 64, 128, 256]

def validThreads (cores : Int) (mode : AutotuneMode) : List Int :=
  let valid := (rerankerThreads mode).filter (· ≤ cores)
  if valid = [] then [1] else valid

def validTokens (minTokens : Int) (mode : AutotuneMode) : List Int :=
  let valid := (rerankerTokens mode).filter (minTokens ≤ ·)
  if valid = [] then [minTokens] else valid

/-- The configurations of three nested loops. -/
def rerankerGrid (threads batches tokens : List Int) : List RerankerConfig :=
  threads.flatMap fun t => batches.flatMap fun b => tokens.map fun k => ⟨t, b, k⟩

def searchIterations : AutotuneMode → Iterations
  | .quick => ⟨1, 5⟩
  | .full => ⟨1, 15⟩

/-- One result after another against the best one so far. -/
def keepBetter (score : RerankerTuningResult → ℚ) (best r : RerankerTuningResult) :
    RerankerTuningResult :=
  if score r < score best then r else best

/-- The configurations that pass, under a bound on the latency. -/
def keepWithin (maxLatencyMs : ℚ) (better : RerankerTuningResult → RerankerTuningResult → Bool)
    (best r : RerankerTuningResult) : RerankerTuningResult :=
  if failedLatency ≤ r.latencyMs then best
  else if maxLatencyMs < r.p95LatencyMs then best
  else if better r best = true then r else best

namespace RerankerHost

variable (host : RerankerHost)

def storedTuning (files : AutotuneFiles) (id : CacheIdentity) : Option RerankerTuningResult :=
  (files.read (rerankerCachePath host.machine host.autotuneDir id)).bind (readRerankerCache · id)

/-- The unconstrained search. -/
def searchAll (modelName : Bytes) (documents : List Bytes) (query : Bytes) (mode : AutotuneMode)
    (objective : Objective) : RerankerTuningResult :=
  ((rerankerGrid (validThreads host.machine.logicalCores mode) (rerankerBatches mode)
    (rerankerTokens mode)).map fun cfg => host.benchRerankerConfig modelName cfg documents query
      (searchIterations mode)).foldl (keepBetter (scoreRerankerConfig · objective)) unmeasured

/-- `lembed_reranker_autotune_impl` -/
def autotuneImpl (files : AutotuneFiles) (modelName : Bytes) (documents : List Bytes)
    (query : Bytes) (mode : AutotuneMode) (objective : Objective) (id : CacheIdentity)
    (saving : Saving) : Except Status RerankerTuningResult × AutotuneFiles :=
  match host.storedTuning files id with
  | some cached => (.ok cached, files)
  | none =>
    let best := host.searchAll modelName documents query mode objective
    if failedLatency ≤ best.latencyMs then (.error .onnxRuntime, files)
    else (.ok best, files.write (rerankerCachePath host.machine host.autotuneDir id)
      (rerankerCacheDocument host.machine.logicalCores id best) saving)

/-- The corpus that the default tuning is measured on. -/
def defaultDocs : List Bytes := generateSyntheticCorpus 20

/-- `default_reranker_identity` -/
def defaultIdentity (modelName : Bytes) (objective : Objective) (mode : AutotuneMode) :
    CacheIdentity :=
  rerankerCacheIdentity modelName (ascii "default") (corpusFingerprint defaultDocs) objective mode

/-- The unconstrained tuning that the other searches fall back to. -/
def fallBack (files : AutotuneFiles) (modelName : Bytes) (mode : AutotuneMode)
    (objective : Objective) (saving : Saving) :
    Except Status RerankerTuningResult × AutotuneFiles :=
  let canon := host.canonicalRerankerId modelName
  host.autotuneImpl files canon defaultDocs rerankerBenchQuery mode objective
    (defaultIdentity canon objective mode) saving

/-- What the grid of a constrained search is measured as. -/
def constrainedResults (modelName : Bytes) (mode : AutotuneMode) (minTokens : Int) :
    List RerankerTuningResult :=
  (rerankerGrid (validThreads host.machine.logicalCores mode) (rerankerBatches mode)
    (validTokens minTokens mode)).map fun cfg =>
      host.benchRerankerConfig modelName cfg defaultDocs rerankerBenchQuery (searchIterations mode)

/-- `lembed_reranker_autotune_constrained` -/
def autotuneConstrained (files : AutotuneFiles) (modelName : Bytes) (mode : AutotuneMode)
    (objective : Objective) (minTokens : Int) (maxLatencyMs : ℚ) (saving : Saving) :
    Except Status RerankerTuningResult × AutotuneFiles :=
  let best := (host.constrainedResults modelName mode minTokens).foldl
    (keepWithin maxLatencyMs fun r best =>
      scoreRerankerConfig r objective < scoreRerankerConfig best objective) unmeasured
  if failedLatency ≤ best.latencyMs then host.fallBack files modelName mode objective saving
  else (.ok best, files)

def budgetIterations : Iterations := ⟨2, 10⟩

/-- What the grid of a search for a budget is measured as. -/
def budgetResults (modelName : Bytes) : List RerankerTuningResult :=
  (rerankerGrid ((rerankerThreads .quick).filter (· ≤ host.machine.logicalCores))
    (rerankerBatches .quick) (rerankerTokens .quick)).map fun cfg =>
      host.benchRerankerConfig modelName cfg defaultDocs rerankerBenchQuery budgetIterations

/-- `lembed_reranker_auto_config` -/
def autoConfig (files : AutotuneFiles) (modelName : Bytes) (targetLatencyMs : ℚ)
    (objective : Objective) (saving : Saving) :
    Except Status RerankerTuningResult × AutotuneFiles :=
  let best := (host.budgetResults modelName).foldl
    (keepWithin targetLatencyMs fun r best => best.throughputDocsSec < r.throughputDocsSec)
      unmeasured
  if failedLatency ≤ best.latencyMs then host.fallBack files modelName .quick objective saving
  else (.ok best, files)

end RerankerHost

end LibEmbedding
