import LibEmbedding.Foundation.Leaders
import LibEmbedding.GgufSpec
import LibEmbedding.ParetoMarks
import LibEmbedding.RerankerTuning
import LibEmbedding.SessionSearch

/-!
# The selection of a model

`lembed_benchmark_select_model` of `embedding_benchmark_impl.hpp` measures the GGUF files below a
directory, leaves out what does not load or misses a constraint, lets `compute_pareto` mark the
dominated candidates and takes the best score of the others. The tolerances of the marks let it
lose a better score, but never by more than `slack`.
-/

namespace LibEmbedding

open Foundation Candidate

structure BenchmarkWeights where
  qualityWeight : ℚ
  throughputWeight : ℚ
  costWeight : ℚ
  deriving DecidableEq, Repr

/-- Zero disables a constraint. -/
structure BenchmarkConstraints where
  qualityMin : ℚ
  throughputMin : ℚ
  memoryMaxMb : ℚ
  deriving DecidableEq, Repr

/-- `lembed_benchmark_profile_weights` -/
def profileWeights : Objective → BenchmarkWeights
  | .throughput => ⟨20 / 100, 70 / 100, 10 / 100⟩
  | .latency => ⟨70 / 100, 20 / 100, 10 / 100⟩
  | .memory => ⟨40 / 100, 10 / 100, 50 / 100⟩
  | .balanced => ⟨50 / 100, 30 / 100, 20 / 100⟩

/-- A model that has been loaded: `embed` gives the data of the result for one text. -/
structure LoadedModel where
  dim : Nat
  embed : Bytes → List ℚ

/-- What lies below a directory, what the models do and what is measured. `scan` gives the regular
files in the order of the iterator, `none` where it throws. -/
structure SelectionHost where
  scan : Bytes → Option (List Bytes)
  create : Bytes → Option LoadedModel
  fileSize : Bytes → Option Nat
  throughput : Bytes → PoolThroughput
  sqrt : ℚ → ℚ
  sorter : SortImpl

/-- The part of `lembed_benchmark_result_t` that a selection fills. -/
structure SelectedModel where
  modelPath : Bytes
  modelName : Bytes
  backend : Bytes
  batchSize : Int
  numThreads : Int
  dim : Int
  throughputDocsSec : ℚ
  qualityScore : ℚ
  score : ℚ
  fileSizeMb : ℚ
  paretoRank : Int
  deriving DecidableEq, Repr

-- ---------------------------------------------------------------------------
-- Paths
-- ---------------------------------------------------------------------------

/-- What stands behind the last slash. -/
def pathFilename (path : Bytes) : Bytes := (path.reverse.takeWhile (· ≠ 47)).reverse

/-- `stem` and `extension`. A dot in front begins no extension. -/
def splitExtension (name : Bytes) : Bytes × Bytes :=
  let behind := (name.reverse.takeWhile (· ≠ 46)).reverse
  if behind.length + 1 < name.length then
    (name.take (name.length - behind.length - 1), 46 :: behind)
  else (name, [])

def pathStem (path : Bytes) : Bytes := (splitExtension (pathFilename path)).1

def pathExtension (path : Bytes) : Bytes := (splitExtension (pathFilename path)).2

-- ---------------------------------------------------------------------------
-- Quality
-- ---------------------------------------------------------------------------

def qCorpus : List Bytes := [
  ascii "Machine learning algorithms learn patterns from data without explicit programming",
  ascii "Deep neural networks use backpropagation for training multi-layer architectures",
  ascii "The stock market experienced significant volatility due to economic uncertainty",
  ascii "Investment portfolios should be diversified across asset classes",
  ascii "The football match ended in a dramatic penalty shootout championship",
  ascii "Soccer players train extensively for endurance and tactical awareness",
  ascii "Climate change is causing rising sea levels and extreme weather events",
  ascii "Renewable energy sources like solar and wind reduce carbon emissions",
  ascii "The Renaissance period saw remarkable achievements in art and science",
  ascii "Ancient Roman architecture influenced building design for centuries",
  ascii "Quantum computing uses qubits to perform calculations faster than classical computers",
  ascii "Cryptographic protocols secure communications using mathematical primitives"]

def qTests : List (Bytes × List Nat) := [
  (ascii "AI and machine learning", [0, 1]),
  (ascii "neural network training", [1, 0]),
  (ascii "financial markets and investing", [2, 3]),
  (ascii "sports competition", [4, 5]),
  (ascii "environmental science", [6, 7]),
  (ascii "history and culture", [8, 9]),
  (ascii "computer science advances", [10, 11])]

/-- `cosine_sim` over the first `dim` values of both. -/
def cosineSim (sqrt : ℚ → ℚ) (a b : List ℚ) (dim : Nat) : Checked ℚ := do
  let sums ← forUpTo dim (fun (s : ℚ × ℚ × ℚ) i => do
    let x ← get a i
    let y ← get b i
    return (s.1 + x * y, s.2.1 + x * x, s.2.2 + y * y)) (0, 0, 0)
  let denom := sqrt sums.2.1 * sqrt sums.2.2
  return if 1 / 10 ^ 8 < denom then sums.1 / denom else 0

/-- `std::greater<>` on scores with their documents. -/
def scoresGreater (a b : ℚ × Nat) : Bool :=
  decide (b.1 < a.1) || !decide (a.1 < b.1) && decide (b.2 < a.2)

/-- Whether a relevant document is among the first three. -/
def testHits (host : SelectionHost) (model : LoadedModel) (cembs : List (List ℚ))
    (test : Bytes × List Nat) : Checked Bool := do
  let qr := model.embed test.1
  let scores ← cembs.zipIdx.mapM fun e => do
    let score ← cosineSim host.sqrt qr e.1 model.dim
    return (score, e.2)
  let scores ← host.sorter.sort scoresGreater scores
  return (scores.take 3).any fun e => test.2.contains e.2

/-- `measure_quality` -/
def measureQuality (host : SelectionHost) (model : LoadedModel) : Checked ℚ := do
  let cembs ← qCorpus.mapM fun text => do
    let data := model.embed text
    ensure (model.dim ≤ data.length) .outOfBounds
    return data.take model.dim
  let hits ← qTests.mapM (testHits host model cembs)
  return (hits.count true : ℚ) / qTests.length

-- ---------------------------------------------------------------------------
-- Candidates
-- ---------------------------------------------------------------------------

def costOf (fileMb : ℚ) : ℚ := min (20 / max fileMb 1) 1

def weightedScore (weights : BenchmarkWeights) (quality throughput fileMb : ℚ) : ℚ :=
  weights.qualityWeight * quality + weights.throughputWeight * min (throughput / 300) 1 +
    weights.costWeight * costOf fileMb

def missesQuality (constraints : Option BenchmarkConstraints) (quality : ℚ) : Bool :=
  constraints.any fun k => decide (0 < k.qualityMin) && decide (quality < k.qualityMin)

def missesMemory (constraints : Option BenchmarkConstraints) (fileMb : ℚ) : Bool :=
  constraints.any fun k => decide (0 < k.memoryMaxMb) && decide (k.memoryMaxMb < fileMb)

def missesThroughput (constraints : Option BenchmarkConstraints) (throughput : ℚ) : Bool :=
  constraints.any fun k => decide (0 < k.throughputMin) && decide (throughput < k.throughputMin)

def fileMbOf (fileSize : Option Nat) : ℚ := fileSize.elim 0 fun n => n / (1024 * 1024)

/-- `benchmark_model`; `none` is its -1. -/
def benchmarkModel (host : SelectionHost) (constraints : Option BenchmarkConstraints)
    (weights : BenchmarkWeights) (path : Bytes) : Checked (Option Candidate) :=
  match host.create path with
  | none => .ok none
  | some model => do
    let quality ← measureQuality host model
    let fileMb := fileMbOf (host.fileSize path)
    if missesQuality constraints quality || missesMemory constraints fileMb then return none
    let search := (detectOptimalSessions (host.throughput path) 8).1
    if missesThroughput constraints search.bestTps then return none
    return some {
      path, name := pathStem path, quality, throughput := search.bestTps, fileMb
      score := weightedScore weights quality search.bestTps fileMb
      sessions := search.bestN, dim := model.dim, dominated := false }

/-- The loop over the models. -/
def benchmarkAll (host : SelectionHost) (constraints : Option BenchmarkConstraints)
    (weights : BenchmarkWeights) (models : List Bytes) : Checked (List Candidate) := do
  let results ← models.mapM (benchmarkModel host constraints weights)
  return results.filterMap fun c => c.filter fun c => decide (0 ≤ c.score)

def Candidate.result (c : Candidate) : SelectedModel where
  modelPath := snprintf 512 c.path
  modelName := snprintf 128 c.name
  backend := ascii "llama.cpp"
  batchSize := c.sessions
  numThreads := if 1 < c.sessions then 1 else 4
  dim := c.dim
  throughputDocsSec := c.throughput
  qualityScore := c.quality
  score := c.score
  fileSizeMb := c.fileMb
  paretoRank := 1

def ggufFiles (files : List Bytes) : List Bytes :=
  files.filter fun path => decide (pathExtension path = ascii ".gguf")

def chosenWeights (objective : Objective) (customWeights : Option BenchmarkWeights) :
    BenchmarkWeights := customWeights.getD (profileWeights objective)

/-- `lembed_benchmark_select_model`, once there is a place for the result. -/
def selectModel (host : SelectionHost) (modelDir : Bytes) (objective : Objective)
    (constraints : Option BenchmarkConstraints) (customWeights : Option BenchmarkWeights) :
    Checked (Status × Option SelectedModel) := do
  match host.scan modelDir with
  | none => return (.io, none)
  | some files =>
    if ggufFiles files = [] then return (.modelNotFound, none)
    let weights := chosenWeights objective customWeights
    let cands ← benchmarkAll host constraints weights (ggufFiles files)
    if cands = [] then return (.modelNotFound, none)
    let cands ← computePareto host.sorter cands
    match leader score (-1) (cands.filter fun c => !c.dominated) with
    | none => return (.modelNotFound, none)
    | some best => return (.ok, some best.result)

-- ---------------------------------------------------------------------------
-- What the marks cost
-- ---------------------------------------------------------------------------

/-- What a selection may lose to the tolerances. -/
def slack (weights : BenchmarkWeights) : ℚ :=
  weights.qualityWeight / 100 + weights.throughputWeight / 300 + weights.costWeight / 41

theorem costOf_anti {m n : ℚ} (h : m ≤ n) : costOf n ≤ costOf m := by
  apply min_le_min_right
  apply div_le_div_of_nonneg_left (by norm_num)
  · exact lt_max_of_lt_right one_pos
  · exact max_le_max_right 1 h

theorem costOf_near (m : ℚ) : costOf m ≤ costOf (m + 1 / 2) + 1 / 41 := by
  have hone : costOf m ≤ 1 := min_le_right _ _
  have hpos : 0 < max (m + 1 / 2) 1 := lt_max_of_lt_right one_pos
  have hcost : costOf m - 1 / 41 ≤ 20 / max (m + 1 / 2) 1 := by
    rcases le_total m 20 with hsmall | hlarge
    · have hmax : max (m + 1 / 2) 1 ≤ 41 / 2 := max_le (by linarith) (by norm_num)
      have hfrac : 40 / 41 ≤ 20 / max (m + 1 / 2) 1 := by
        rw [le_div_iff₀ hpos]
        linarith
      linarith
    · have hmax : max m 1 = m := max_eq_left (by linarith)
      have hle : costOf m ≤ 20 / m := by
        rw [costOf, hmax]
        exact min_le_left _ _
      have hnear : 20 / m ≤ 20 / (m + 1 / 2) + 1 / 41 := by
        rw [div_add_div _ _ (by linarith) (by norm_num), div_le_div_iff₀ (by linarith)
          (by linarith)]
        nlinarith
      rw [max_eq_left (by linarith : 1 ≤ m + 1 / 2)]
      linarith
  exact sub_le_iff_le_add.mp (le_min hcost (by linarith))

/-- A candidate that covers another one is not far below it. -/
theorem score_le_of_covers {weights : BenchmarkWeights} (hquality : 0 ≤ weights.qualityWeight)
    (hthroughput : 0 ≤ weights.throughputWeight) (hcost : 0 ≤ weights.costWeight)
    {c d : Candidate} (hcovers : d.covers c) (hnear : c.quality ≤ d.quality + 1 / 100) :
    weightedScore weights c.quality c.throughput c.fileMb ≤
      weightedScore weights d.quality d.throughput d.fileMb + slack weights := by
  obtain ⟨hfast, hsmall, -⟩ := covers_iff.mp hcovers
  have hspeed : min (c.throughput / 300) 1 ≤ min (d.throughput / 300) 1 + 1 / 300 := by
    rw [← sub_le_iff_le_add]
    apply le_min
    · have hle : min (c.throughput / 300) 1 ≤ c.throughput / 300 := min_le_left _ _
      linarith
    · have hle : min (c.throughput / 300) 1 ≤ 1 := min_le_right _ _
      linarith
  have hsize : costOf c.fileMb ≤ costOf d.fileMb + 1 / 41 := by
    have hanti := costOf_anti hsmall
    have hclose := costOf_near c.fileMb
    linarith
  have h₁ := mul_le_mul_of_nonneg_left hnear hquality
  have h₂ := mul_le_mul_of_nonneg_left hspeed hthroughput
  have h₃ := mul_le_mul_of_nonneg_left hsize hcost
  rw [weightedScore, weightedScore, slack]
  linarith

/-- Whatever becomes of the frontier, a candidate is left with no mark, or an unmarked one covers
it that is not worse in quality by more than the tolerance. -/
theorem computePareto_covered {sorter : SortImpl} {cands out : List Candidate}
    (hweak : StrictWeak goesBefore (fresh cands)) (h : computePareto sorter cands = .ok out) :
    (out.map (·.mark false)).Perm (fresh cands) ∧
      ∀ c ∈ out, ∃ d ∈ out, d.dominated = false ∧
        (d = c ∨ d.covers c = true ∧ c.quality ≤ d.quality + 1 / 100) := by
  rcases Nat.lt_or_ge 1 cands.length with hlong | hshort
  · obtain ⟨order, hsort, hperm, hsorted⟩ := sorter.sort_spec goesBefore (fresh cands) hweak
    have hallows : Allows cands order := ⟨hperm, hsorted⟩
    rw [computePareto_of_sort hlong hallows hsort] at h
    obtain ⟨⟨ms, frontier⟩, hsweep, rfl⟩ := map_ok.mp h
    obtain ⟨hlength, -, hmarked⟩ := sweep_marked hsweep
    have hunmark : (markWith order ms).map (·.mark false) = order := by
      rw [← markWith_nil_of_perm hperm]
      conv_lhs => rw [markWith_nil_of_perm hperm]
      simp [markWith, Candidate.mark]
    refine ⟨by rwa [hunmark], fun c hc => ?_⟩
    obtain ⟨i, hi⟩ := List.mem_iff_getElem?.mp hc
    rw [getElem?_markWith, Option.map_eq_some_iff] at hi
    obtain ⟨c, hget, rfl⟩ := hi
    have hlt : i < order.length := (List.getElem?_eq_some_iff.mp hget).1
    cases hmark : ms.getD i false with
    | false => exact ⟨c.mark false, hmark ▸ hc, rfl, .inl rfl⟩
    | true =>
      have hmark' : ms.getD i true = true := by
        simpa [List.getD_eq_getElem?_getD, hlength ▸ hlt] using hmark
      obtain ⟨x, hx, hfree, hcovers⟩ := hmarked i hlt hmark'
      have hlt' : x < order.length := hx.trans hlt
      have hfree' : ms.getD x false = false := by
        simpa [List.getD_eq_getElem?_getD, hlength ▸ hlt'] using hfree
      obtain ⟨d, hd⟩ : ∃ d, order[x]? = some d := ⟨_, List.getElem?_eq_getElem hlt'⟩
      have hmem : d.mark false ∈ markWith order ms := by
        refine List.mem_of_getElem? (i := x) ?_
        rw [getElem?_markWith, hd, hfree']
        rfl
      have hin : InOrder goesBefore d c := by
        rw [List.getElem?_eq_getElem hlt'] at hd
        rw [List.getElem?_eq_getElem hlt] at hget
        rw [← Option.some.inj hd, ← Option.some.inj hget]
        exact List.pairwise_iff_getElem.mp hsorted x i hlt' hlt hx
      rw [coversAt, hd, hget] at hcovers
      exact ⟨d.mark false, hmem, rfl, .inr ⟨hcovers, (inOrder_iff.mp hin).1⟩⟩
  · have hout : out = fresh cands := by
      have hsize : (fresh cands).length ≤ 1 := by rwa [fresh, List.length_map]
      have hsame : computePareto sorter cands = .ok (fresh cands) := if_pos hsize
      rw [hsame] at h
      exact (Except.ok.inj h).symm
    subst hout
    refine ⟨?_, fun c hc => ⟨c, hc, ?_, .inl rfl⟩⟩
    · rw [fresh, List.map_map]
      exact .refl _
    · obtain ⟨d, -, rfl⟩ := List.mem_map.mp hc
      rfl

-- ---------------------------------------------------------------------------
-- The candidates
-- ---------------------------------------------------------------------------

/-- What a candidate says is what was measured of its model, and it meets the constraints. -/
structure Measured (host : SelectionHost) (constraints : Option BenchmarkConstraints)
    (weights : BenchmarkWeights) (models : List Bytes) (c : Candidate) : Prop where
  model : c.path ∈ models
  quality : ∃ m, host.create c.path = some m ∧ measureQuality host m = .ok c.quality
  throughput : c.throughput = (detectOptimalSessions (host.throughput c.path) 8).1.bestTps
  fileMb : c.fileMb = fileMbOf (host.fileSize c.path)
  score : c.score = weightedScore weights c.quality c.throughput c.fileMb
  unmarked : c.dominated = false
  constraints : ∀ k, constraints = some k →
    (0 < k.qualityMin → k.qualityMin ≤ c.quality) ∧
      (0 < k.memoryMaxMb → c.fileMb ≤ k.memoryMaxMb) ∧
      (0 < k.throughputMin → k.throughputMin ≤ c.throughput)

theorem benchmarkModel_measured {host : SelectionHost} {constraints : Option BenchmarkConstraints}
    {weights : BenchmarkWeights} {models : List Bytes} {path : Bytes} (hpath : path ∈ models)
    {c : Candidate} (h : benchmarkModel host constraints weights path = .ok (some c)) :
    Measured host constraints weights models c := by
  unfold benchmarkModel at h
  split at h
  · cases h
  · rename_i model hmodel
    obtain ⟨quality, hquality, h⟩ := bind_ok.mp h
    dsimp only at h
    split at h
    · cases h
    · rename_i hfirst
      split at h
      · cases h
      · rename_i hspeed
        cases h
        rw [Bool.or_eq_true, not_or] at hfirst
        obtain ⟨hgood, hsmall⟩ := hfirst
        refine ⟨hpath, ⟨model, hmodel, hquality⟩, rfl, rfl, rfl, rfl, ?_⟩
        rintro k rfl
        simp only [missesQuality, missesMemory, missesThroughput, Option.any_some, Bool.and_eq_true,
          decide_eq_true_eq, not_and, not_lt] at hgood hsmall hspeed
        exact ⟨hgood, hsmall, hspeed⟩

theorem benchmarkAll_measured {host : SelectionHost} {constraints : Option BenchmarkConstraints}
    {weights : BenchmarkWeights} {models : List Bytes} {cands : List Candidate}
    (h : benchmarkAll host constraints weights models = .ok cands) :
    ∀ c ∈ cands, Measured host constraints weights models c ∧ 0 ≤ c.score := by
  obtain ⟨results, hresults, hcands⟩ := bind_ok.mp h
  cases hcands
  intro c hc
  obtain ⟨r, hr, hfilter⟩ := List.mem_filterMap.mp hc
  obtain ⟨rfl, hscore⟩ := Option.filter_eq_some_iff.mp hfilter
  obtain ⟨path, hpath, hbench⟩ := mem_of_mapM hresults hr
  exact ⟨benchmarkModel_measured hpath hbench, of_decide_eq_true hscore⟩

theorem fresh_of_measured {host : SelectionHost} {constraints : Option BenchmarkConstraints}
    {weights : BenchmarkWeights} {models : List Bytes} {cands : List Candidate}
    (h : ∀ c ∈ cands, Measured host constraints weights models c ∧ 0 ≤ c.score) :
    fresh cands = cands := by
  refine (List.map_congr_left fun c hc => ?_).trans (List.map_id cands)
  obtain ⟨path, name, quality, throughput, fileMb, score, sessions, dim, dominated⟩ := c
  obtain rfl : dominated = false := (h _ hc).1.unmarked
  rfl

-- ---------------------------------------------------------------------------
-- The selection
-- ---------------------------------------------------------------------------

/-- The loop over the marked candidates finds one. -/
theorem leader_found {out : List Candidate} (hne : out ≠ []) (hscore : ∀ c ∈ out, 0 ≤ c.score)
    (hcovered : ∀ c ∈ out, ∃ d ∈ out, d.dominated = false ∧
      (d = c ∨ d.covers c = true ∧ c.quality ≤ d.quality + 1 / 100)) :
    ∃ best, leader score (-1) (out.filter fun c => !c.dominated) = some best := by
  obtain ⟨c, hc⟩ := List.exists_mem_of_ne_nil out hne
  obtain ⟨d, hd, hfree, -⟩ := hcovered c hc
  cases hleader : leader score (-1) (out.filter fun c => !c.dominated) with
  | some best => exact ⟨best, rfl⟩
  | none =>
    have hlow := leader_eq_none_iff.mp hleader d (List.mem_filter.mpr ⟨hd, by simp [hfree]⟩)
    linarith [hscore d hd]

section Selection

variable {host : SelectionHost} {modelDir : Bytes} {objective : Objective}
  {constraints : Option BenchmarkConstraints} {customWeights : Option BenchmarkWeights}
  {weights : BenchmarkWeights} {files : List Bytes} {cands : List Candidate} {status : Status}
  {result : Option SelectedModel}

/-- Where the marks are set, the best of the unmarked candidates is selected. -/
theorem leader_nearBest (hmeasured : ∀ c ∈ cands,
      Measured host constraints weights (ggufFiles files) c ∧ 0 ≤ c.score)
    (hne : cands ≠ []) (hweak : StrictWeak goesBefore cands) {out : List Candidate}
    (hout : computePareto host.sorter cands = .ok out) :
    ∃ best, leader score (-1) (out.filter fun c => !c.dominated) = some best ∧
      ∃ c ∈ cands, best.result = c.result ∧
        (0 ≤ weights.qualityWeight → 0 ≤ weights.throughputWeight → 0 ≤ weights.costWeight →
          ∀ d ∈ cands, d.score ≤ c.score + slack weights) := by
  have hfresh := fresh_of_measured hmeasured
  obtain ⟨hperm, hcovered⟩ := computePareto_covered (by rwa [hfresh]) hout
  rw [hfresh] at hperm
  have hback : ∀ c ∈ out, c.mark false ∈ cands := fun c hc =>
    hperm.mem_iff.mp (List.mem_map_of_mem hc)
  have hscore : ∀ c ∈ out, c.score = weightedScore weights c.quality c.throughput c.fileMb :=
    fun c hc => (hmeasured _ (hback c hc)).1.score
  have hempty : out ≠ [] := by
    rintro rfl
    exact hne hperm.symm.eq_nil
  obtain ⟨best, hbest⟩ :=
    leader_found hempty (fun c hc => (hmeasured _ (hback c hc)).2) hcovered
  have hleads := leader_eq_some_iff.mp hbest
  have hmem := (List.mem_filter.mp hleads.mem).1
  refine ⟨best, hbest, best.mark false, hback best hmem, rfl, fun hq ht hc d hd => ?_⟩
  obtain ⟨d, hd', rfl⟩ := List.mem_map.mp (hperm.mem_iff.mpr hd)
  obtain ⟨e, he, hfree, hcase⟩ := hcovered d hd'
  have hle : e.score ≤ best.score := hleads.max (List.mem_filter.mpr ⟨he, by simp [hfree]⟩)
  have hpos : 0 ≤ slack weights := by
    rw [slack]
    positivity
  change d.score ≤ best.score + slack weights
  rcases hcase with rfl | ⟨hcovers, hnear⟩
  · linarith
  · have hclose := score_le_of_covers hq ht hc hcovers hnear
    rw [← hscore d hd', ← hscore e he] at hclose
    linarith

end Selection

/-- Two models of one quality and size, and a file that is none. -/
def twoModels : SelectionHost where
  scan _ := some [ascii "m/slow.gguf", ascii "m/readme.md", ascii "m/fast.gguf"]
  create _ := some ⟨1, fun _ => [1]⟩
  fileSize _ := some (100 * 1024 * 1024)
  throughput path _ _ := if path = ascii "m/fast.gguf" then (200 : Nat) else (100 : Nat)
  sqrt x := x
  sorter := insertionImpl

def twoCandidates : List Candidate := [
  ⟨ascii "m/slow.gguf", ascii "slow", 2 / 7, 100, 100,
    weightedScore (profileWeights .balanced) (2 / 7) 100 100, 1, 1, false⟩,
  ⟨ascii "m/fast.gguf", ascii "fast", 2 / 7, 200, 100,
    weightedScore (profileWeights .balanced) (2 / 7) 200 100, 1, 1, false⟩]

end LibEmbedding
