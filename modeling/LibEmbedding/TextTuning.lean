import LibEmbedding.Foundation.Leaders
import LibEmbedding.AutotuneCacheReads
import LibEmbedding.TextModels

/-!
# Tuning a text model

`autotune_text_impl`: a stored result for the entry's code, the corpus and the mode, or else a
search through the configurations that the machine has the cores for. What a configuration comes
to is `benchmark_text_config`'s.
-/

namespace LibEmbedding

open Foundation

/-- `lembed_autotune_mode_t` -/
inductive AutotuneMode where
  | quick
  | full
  deriving DecidableEq, Repr

def AutotuneMode.code : AutotuneMode → Int
  | .quick => 0
  | .full => 1

/-- `lembed_tuning_result_t` -/
structure TuningResult where
  workers : Int
  threads : Int
  batchSize : Int
  throughputDocsSec : ℚ
  latencyMs : ℚ
  memoryMb : ℚ
  deriving DecidableEq

-- ---------------------------------------------------------------------------
-- The stored result
-- ---------------------------------------------------------------------------

/-- `text_cache_identity` -/
def textCacheIdentity (modelCode variant corpus : Bytes) (mode : AutotuneMode) : CacheIdentity where
  model := modelCode
  variant
  corpus
  objective := -1
  mode := mode.code

def textCachePath (machine : Machine) (dir : Bytes) (id : CacheIdentity) : Bytes :=
  getCachePath machine dir id.model [] id.variantKey

def TuningResult.lines (result : TuningResult) : List Bytes := [
  numberLine (ascii "workers") (showInt result.workers) false,
  numberLine (ascii "threads") (showInt result.threads) false,
  numberLine (ascii "batch_size") (showInt result.batchSize) false,
  numberLine (ascii "throughput_docs_sec") (showDouble result.throughputDocsSec) false,
  numberLine (ascii "latency_ms") (showDouble result.latencyMs) false,
  numberLine (ascii "memory_mb") (showDouble result.memoryMb) true]

/-- The document that `write_text_cache` writes. -/
def textCacheDocument (id : CacheIdentity) (result : TuningResult) : Bytes := entry id result.lines

/-- The variables of the loop over the lines. -/
structure TuningRead where
  result : TuningResult := ⟨0, 0, 0, 0, 0, 0⟩
  found : Nat := 0

def TuningRead.readLine (st : TuningRead) (line : Bytes) : TuningRead :=
  match jsonInt line (ascii "workers") with
  | some workers => ⟨{ st.result with workers }, st.found + 1⟩
  | none => match jsonInt line (ascii "threads") with
    | some threads => ⟨{ st.result with threads }, st.found + 1⟩
    | none => match jsonInt line (ascii "batch_size") with
      | some batchSize => ⟨{ st.result with batchSize }, st.found + 1⟩
      | none => match jsonNumber line (ascii "throughput_docs_sec") with
        | some throughputDocsSec => ⟨{ st.result with throughputDocsSec }, st.found + 1⟩
        | none => match jsonNumber line (ascii "latency_ms") with
          | some latencyMs => ⟨{ st.result with latencyMs }, st.found + 1⟩
          | none => match jsonNumber line (ascii "memory_mb") with
            | some memoryMb => ⟨{ st.result with memoryMb }, st.found + 1⟩
            | none => st

def tuningFields : Nat := 6

/-- `read_text_cache` on what the file holds. -/
def readTextCache (content : Bytes) (id : CacheIdentity) : Option TuningResult :=
  if CacheIdentity.matches content id = true then
    let st := (linesOf content).foldl TuningRead.readLine {}
    if st.found < tuningFields then none else some st.result
  else none

-- ---------------------------------------------------------------------------
-- Corpora and configurations
-- ---------------------------------------------------------------------------

def benchmarkWords : List Bytes := [
  "the", "quick", "brown", "fox", "jumps", "over", "lazy", "dog",
  "machine", "learning", "algorithms", "process", "data", "efficiently",
  "natural", "language", "processing", "enables", "understanding", "semantic",
  "embeddings", "represent", "meaningful", "vector", "representations",
  "transformer", "models", "utilize", "attention", "mechanisms",
  "deep", "neural", "networks", "learn", "patterns", "from", "training",
  "optimization", "techniques", "improve", "convergence", "accuracy",
  "inference", "latency", "throughput", "benchmark", "performance",
  "production", "deployment", "scalable", "reliable", "systems"].map ascii

/-- 40% short, 40% medium, 20% long. -/
def benchmarkLengths : List Nat := [16, 16, 16, 16, 64, 64, 64, 64, 128, 128]

/-- `generate_corpus` -/
def generateCorpus (numSamples : Nat) : List Bytes :=
  (List.range numSamples).map fun i =>
    (ascii " ").intercalate <|
      (List.range (benchmarkLengths.getD (i % benchmarkLengths.length) 0)).map fun j =>
        benchmarkWords.getD ((i * 7 + j) % benchmarkWords.length) []

/-- What is to be tuned. The callers count their texts in an `int`. -/
structure TuningRequest where
  model : Nat
  corpus : List Bytes
  counted : corpus.length ≤ intMax
  mode : AutotuneMode

namespace TuningRequest

variable (request : TuningRequest)

/-- The corpus that is benchmarked. -/
def benchCorpus : List Bytes :=
  if request.corpus = [] then generateCorpus (if request.mode = .quick then 16 else 64)
  else request.corpus

def identity (info : TextModelInfo) : CacheIdentity :=
  textCacheIdentity info.modelCode
    (if request.corpus = [] then ascii "synthetic" else ascii "custom")
    (corpusFingerprint request.benchCorpus) request.mode

end TuningRequest

structure TuningConfig where
  workers : Int
  threads : Int
  batch : Int
  deriving DecidableEq

/-- The configurations that are tried, in their order. -/
def textConfigs (cores : Int) : AutotuneMode → List TuningConfig
  | .quick =>
    ([1, min 4 cores, min 8 cores].filter (· ≤ cores)).map fun w => ⟨w, 1, 32⟩
  | .full =>
    ([1, 2, 4, 8, 16].filter (· ≤ cores)).flatMap fun w =>
      ([1, 2, 4].filter (w * · ≤ cores)).flatMap fun t =>
        [16, 32, 64, 128, 256].map fun b => ⟨w, t, b⟩

/-- `score_text_config` -/
def scoreTextConfig (throughput latencyMs memoryMb : ℚ) : ℚ :=
  let memPenalty := if 500 < memoryMb then (memoryMb - 500) / 100 else 0
  let latPenalty := if 20 < latencyMs then (latencyMs - 20) / 5 else 0
  throughput - memPenalty - latPenalty

-- ---------------------------------------------------------------------------
-- The search
-- ---------------------------------------------------------------------------

def TuningConfig.memoryMb (cfg : TuningConfig) : ℚ := cfg.workers * 100

/-- A configuration with what was measured of it, throughput and latency. -/
def TuningConfig.result (cfg : TuningConfig) (measured : ℚ × ℚ) : TuningResult where
  workers := cfg.workers
  threads := cfg.threads
  batchSize := cfg.batch
  throughputDocsSec := measured.1
  latencyMs := measured.2
  memoryMb := cfg.memoryMb

/-- The variables of the loop over the configurations. -/
structure TuningSearch where
  bestScore : ℚ := -10 ^ 18
  benchmarked : Nat := 0
  best : TuningResult := ⟨1, 1, 64, 0, 0, 0⟩

def TuningSearch.step (benchmark : TuningConfig → ℚ × ℚ) (st : TuningSearch) (cfg : TuningConfig) :
    TuningSearch :=
  let (throughput, latency) := benchmark cfg
  if throughput ≤ 0 then st
  else
    let score := scoreTextConfig throughput latency cfg.memoryMb
    if st.bestScore < score then
      ⟨score, st.benchmarked + 1, cfg.result (throughput, latency)⟩
    else { st with benchmarked := st.benchmarked + 1 }

namespace TextHost

variable (host : TextHost)

/-- The stored result of a request, if there is one. -/
def storedTuning (files : AutotuneFiles) (id : CacheIdentity) : Option TuningResult :=
  (files.read (textCachePath host.machine host.autotuneDir id)).bind (readTextCache · id)

/-- What the search comes to, where a configuration could be benchmarked. -/
def freshTuning (mode : AutotuneMode) (benchmark : TuningConfig → ℚ × ℚ) : Option TuningResult :=
  let st := (textConfigs host.machine.logicalCores mode).foldl (TuningSearch.step benchmark) {}
  if st.benchmarked = 0 then none else some st.best

/-- `autotune_text_impl`, with what `benchmark_text_config` makes of each configuration. -/
def autotuneText (files : AutotuneFiles) (request : TuningRequest)
    (benchmark : TuningConfig → ℚ × ℚ) (saving : Saving) :
    Except Status TuningResult × AutotuneFiles :=
  match host.registry[request.model]? with
  | none => (.error .modelNotFound, files)
  | some info =>
    if request.benchCorpus = [] then (.error .invalidArgument, files)
    else
      let id := request.identity info
      match host.storedTuning files id with
      | some cached => (.ok cached, files)
      | none =>
        match host.freshTuning request.mode benchmark with
        | none => (.error .onnxRuntime, files)
        | some best =>
          (.ok best, files.write (textCachePath host.machine host.autotuneDir id)
            (textCacheDocument id best) saving)

end TextHost

-- ---------------------------------------------------------------------------
-- What the search keeps
-- ---------------------------------------------------------------------------

namespace TuningSearch

variable (benchmark : TuningConfig → ℚ × ℚ)

/-- The score of a configuration, and the least of all where it could not be benchmarked. -/
def scoreOf (cfg : TuningConfig) : WithBot ℚ :=
  if (benchmark cfg).1 ≤ 0 then ⊥
  else scoreTextConfig (benchmark cfg).1 (benchmark cfg).2 cfg.memoryMb

/-- The score that the search starts from. -/
def floor : WithBot ℚ := ((-10 ^ 18 : ℚ) : WithBot ℚ)

/-- What a leader is returned as. With none it is what the search starts with. -/
def kept (best : Option TuningConfig) : TuningResult :=
  best.elim ⟨1, 1, 64, 0, 0, 0⟩ fun cfg => cfg.result (benchmark cfg)

/-- The search keeps the leader and counts what could be benchmarked. -/
theorem foldl_eq (configs : List TuningConfig) :
    ((configs.foldl (step benchmark) {}).bestScore : WithBot ℚ) =
        standing (scoreOf benchmark) floor (leader (scoreOf benchmark) floor configs) ∧
      (configs.foldl (step benchmark) {}).best =
        kept benchmark (leader (scoreOf benchmark) floor configs) ∧
      ((configs.foldl (step benchmark) {}).benchmarked = 0 ↔
        ∀ cfg ∈ configs, scoreOf benchmark cfg = ⊥) := by
  induction configs using List.reverseRecOn with
  | nil => exact ⟨rfl, rfl, by simp⟩
  | append_singleton configs cfg ih =>
    obtain ⟨hscore, hbest, hcount⟩ := ih
    rw [List.foldl_append, List.foldl_cons, List.foldl_nil, leader_append, ← hscore]
    generalize configs.foldl (step benchmark) {} = st at hscore hbest hcount ⊢
    by_cases hfailed : (benchmark cfg).1 ≤ 0
    · have hbot : scoreOf benchmark cfg = ⊥ := if_pos hfailed
      have hsame : step benchmark st cfg = st := if_pos hfailed
      rw [hsame, hbot, if_neg not_lt_bot]
      refine ⟨hscore, hbest, hcount.trans ?_⟩
      simp [or_imp, forall_and, hbot]
    · have hscored : scoreOf benchmark cfg =
          scoreTextConfig (benchmark cfg).1 (benchmark cfg).2 cfg.memoryMb := if_neg hfailed
      have hcounted : (step benchmark st cfg).benchmarked = st.benchmarked + 1 := by
        simp only [step, if_neg hfailed]
        split <;> rfl
      refine and_assoc.mp ⟨?_, ?_⟩
      · simp only [step, if_neg hfailed, hscored, WithBot.coe_lt_coe]
        by_cases hbeats :
            st.bestScore < scoreTextConfig (benchmark cfg).1 (benchmark cfg).2 cfg.memoryMb
        · rw [if_pos hbeats, if_pos hbeats]
          exact ⟨hscored.symm, rfl⟩
        · rw [if_neg hbeats, if_neg hbeats]
          exact ⟨hscore, hbest⟩
      · rw [hcounted]
        refine iff_of_false (Nat.succ_ne_zero _) fun hall => ?_
        have hbot := hall cfg (List.mem_append_right _ List.mem_cons_self)
        rw [hscored] at hbot
        exact WithBot.coe_ne_bot hbot

end TuningSearch

end LibEmbedding
