import LibEmbedding.Foundation.Breaks
import LibEmbedding.Types

/-!
# The tuning of a backend

`lembed_benchmark_autotune` of `unified_benchmark_impl.hpp`. For llama.cpp it adds sessions
one by one and leaves the loop when the score is below the best one and 5%, where the best
one is already that of the same count.
-/

namespace LibEmbedding

open Foundation

/-- `lembed_backend_config_t` -/
structure BackendConfig where
  backend : String
  numThreads : Int
  batchSize : Int
  workers : Int
  deriving DecidableEq, Repr

/-- The parts of `lembed_benchmark_result_t` the tuning looks at or chooses. -/
structure BenchmarkResult where
  config : BackendConfig
  throughputDocsSec : ℚ≥0
  deriving DecidableEq

def BenchmarkResult.zero : BenchmarkResult := ⟨⟨"", 0, 0, 0⟩, 0⟩

/-- What the two kinds of benchmark measure, `none` when they fail. -/
structure Benchmarks where
  llama : (sessions threads : Int) → Option ℚ≥0
  onnx : (threads batchSize : Int) → Option ℚ≥0

def benchLlama (b : Benchmarks) (config : BackendConfig) : Option ℚ≥0 :=
  let nSessions := if 0 < config.workers then max 1 config.workers else max 1 config.batchSize
  let nThreads := max 1 config.numThreads
  b.llama nSessions nThreads

def benchOnnx (b : Benchmarks) (config : BackendConfig) : Option ℚ≥0 :=
  b.onnx config.numThreads config.batchSize

/-- `lembed_benchmark_run` -/
def benchmarkRun (b : Benchmarks) (backend : String) (config : BackendConfig) :
    Option BenchmarkResult :=
  let measured := if backend = "onnx" then benchOnnx b config else benchLlama b config
  measured.map (⟨config, ·⟩)

structure BackendSearch where
  bestScore : ℚ
  best : BenchmarkResult
  deriving DecidableEq

namespace BackendSearch

def new : BackendSearch := ⟨-1, .zero⟩

/-- `if (score > best_score) { best_score = score; best = r; }` -/
def consider (s : BackendSearch) (r : BenchmarkResult) : BackendSearch :=
  if s.bestScore < r.throughputDocsSec then ⟨r.throughputDocsSec, r⟩ else s

/-- One more session. The test comes after the update. -/
def addSession (b : Benchmarks) (s : BackendSearch) (nSess : Nat) : BackendSearch × Bool :=
  match benchmarkRun b "llama.cpp" ⟨"llama.cpp", 1, nSess, 0⟩ with
  | none => (s, false)
  | some r =>
    let s := s.consider r
    (s, decide (1 < nSess ∧ r.throughputDocsSec < s.bestScore * (105 / 100)))

/-- Another configuration of threads and batch size. -/
def tryConfig (b : Benchmarks) (backend : String) (s : BackendSearch) (thr bsz : Int) :
    BackendSearch :=
  match benchmarkRun b backend ⟨"onnx", thr, bsz, 1⟩ with
  | none => s
  | some r => s.consider r

end BackendSearch

/-- The search of the llama.cpp backend, with how many counts it has measured. -/
def searchSessions (b : Benchmarks) : BackendSearch × Nat :=
  forBreak (BackendSearch.addSession b) .new 8

def searchThreads (b : Benchmarks) (backend : String) : BackendSearch :=
  [1, 2, 3, 4].foldl (fun s thr =>
    [32, 64, 128].foldl (fun s bsz => s.tryConfig b backend thr bsz) s) .new

/-- `lembed_benchmark_autotune` -/
def benchmarkAutotune (b : Benchmarks) (modelPath backend : Option String) :
    Except Status BenchmarkResult :=
  match modelPath, backend with
  | some _, some backend =>
    let s := if backend = "llama.cpp" then (searchSessions b).1 else searchThreads b backend
    if s.bestScore < 0 then .error .llama else .ok s.best
  | _, _ => .error .invalidArgument

-- ---------------------------------------------------------------------------
-- The gain of a session
-- ---------------------------------------------------------------------------

/-- The best throughput of the first `n` counts, where one of them was measured. -/
def bestRun (b : Benchmarks) : Nat → Option ℚ≥0
  | 0 => none
  | n + 1 =>
    match b.llama (n + 1 : Nat) 1, bestRun b n with
    | none, best => best
    | some tps, none => some tps
    | some tps, some best => some (max best tps)

/-- The count improves the best throughput of fewer sessions by at least 5%. -/
def Gains (b : Benchmarks) (n : Nat) : Prop :=
  ∃ tps best, b.llama n 1 = some tps ∧ bestRun b (n - 1) = some best ∧ best < tps ∧
    (best : ℚ) * (105 / 100) ≤ tps

/-- The search goes on as long as it gains, up to its limit. -/
structure KeepsSearching (b : Benchmarks) (modelPath : String) : Prop where
  next : ∀ n < 8, n ≤ (searchSessions b).2 → Gains b n → n + 1 ≤ (searchSessions b).2
  largest : (∀ n, 2 ≤ n → n ≤ 8 → Gains b n) →
    ∃ r, benchmarkAutotune b (some modelPath) (some "llama.cpp") = .ok r ∧ r.config.batchSize = 8

/-- A measured count beyond the first, with anything measured above zero up to it. -/
def Halts (b : Benchmarks) (n : Nat) : Prop :=
  1 < n ∧ (b.llama n 1).isSome ∧ ∃ best, bestRun b n = some best ∧ 0 < best

section Search

variable {b : Benchmarks}

theorem benchmarkRun_llama (b : Benchmarks) {n : Nat} (hn : 1 ≤ n) :
    benchmarkRun b "llama.cpp" ⟨"llama.cpp", 1, n, 0⟩ =
      (b.llama n 1).map (⟨⟨"llama.cpp", 1, n, 0⟩, ·⟩) := by
  have hsessions : max 1 (n : Int) = n := max_eq_right (by omega)
  simp [benchmarkRun, benchLlama, hsessions]

/-- The score to beat, before any run and after. -/
def scoreOf (best : Option ℚ≥0) : ℚ := best.elim (-1) (↑)

theorem bestRun_of_none (h : b.llama (n + 1 : Nat) 1 = none) : bestRun b (n + 1) = bestRun b n := by
  rw [bestRun, h]

theorem bestRun_of_some (h : b.llama (n + 1 : Nat) 1 = some tps) :
    ∃ best, bestRun b (n + 1) = some best ∧ tps ≤ best ∧
      (best : ℚ) = max (scoreOf (bestRun b n)) tps := by
  rw [bestRun, h]
  cases hbest : bestRun b n with
  | none =>
    refine ⟨tps, rfl, le_rfl, (max_eq_right ?_).symm⟩
    have hpos : (0 : ℚ) ≤ tps := tps.cast_nonneg
    simp only [scoreOf, Option.elim_none]
    linarith
  | some best =>
    refine ⟨max best tps, rfl, le_max_right _ _, ?_⟩
    simp [scoreOf]

theorem addSession_of_none (s : BackendSearch) (h : b.llama (n + 1 : Nat) 1 = none) :
    s.addSession b (n + 1) = (s, false) := by
  rw [BackendSearch.addSession, benchmarkRun_llama b (Nat.le_add_left 1 n), h]
  rfl

theorem addSession_of_some (s : BackendSearch) (h : b.llama (n + 1 : Nat) 1 = some tps) :
    s.addSession b (n + 1) =
      let t := s.consider ⟨⟨"llama.cpp", 1, (n + 1 : Nat), 0⟩, tps⟩
      (t, decide (1 < n + 1 ∧ (tps : ℚ) < t.bestScore * (105 / 100))) := by
  rw [BackendSearch.addSession, benchmarkRun_llama b (Nat.le_add_left 1 n), h]
  rfl

theorem consider_bestScore (s : BackendSearch) (r : BenchmarkResult) :
    (s.consider r).bestScore = max s.bestScore r.throughputDocsSec := by
  unfold BackendSearch.consider
  split
  · rename_i hless
    exact (max_eq_right hless.le).symm
  · rename_i hnot
    exact (max_eq_left (not_lt.mp hnot)).symm

theorem bestScore_passed (b : Benchmarks) (k : Nat) :
    (passed (BackendSearch.addSession b) .new k).bestScore = scoreOf (bestRun b k) := by
  refine passed_invariant (fun k (s : BackendSearch) => s.bestScore = scoreOf (bestRun b k))
    rfl ?_ k
  intro k s hs
  cases hrun : b.llama (k + 1 : Nat) 1 with
  | none => rw [addSession_of_none s hrun, bestRun_of_none hrun, hs]
  | some tps =>
    obtain ⟨best, hbest, -, hmax⟩ := bestRun_of_some hrun
    rw [addSession_of_some s hrun, hbest]
    dsimp only
    rw [consider_bestScore, hs]
    exact hmax.symm

/-- A score is below the best one and 5% unless both are zero. -/
theorem below_margin_iff {tps best : ℚ≥0} (hle : tps ≤ best) :
    (tps : ℚ) < best * (105 / 100) ↔ 0 < best := by
  have hle' : (tps : ℚ) ≤ best := NNRat.cast_le.mpr hle
  have htps : (0 : ℚ) ≤ tps := tps.cast_nonneg
  have hcast : (0 : ℚ) < best ↔ 0 < best := NNRat.cast_pos
  rw [← hcast]
  constructor
  · intro h
    by_contra hnot
    linarith
  · intro h
    linarith

/-- The search breaks off exactly where a count halts it. -/
theorem addSession_breaks_iff (b : Benchmarks) (k : Nat) :
    (BackendSearch.addSession b (passed (BackendSearch.addSession b) .new k) (k + 1)).2 = true ↔
      Halts b (k + 1) := by
  have hscore := bestScore_passed b k
  generalize passed (BackendSearch.addSession b) .new k = s at hscore
  cases hrun : b.llama (k + 1 : Nat) 1 with
  | none =>
    rw [addSession_of_none s hrun, Halts, hrun]
    simp
  | some tps =>
    obtain ⟨best, hbest, hle, hmax⟩ := bestRun_of_some hrun
    rw [addSession_of_some s hrun, Halts, hrun, hbest]
    dsimp only
    rw [consider_bestScore, hscore, ← hmax, decide_eq_true_eq, below_margin_iff hle]
    simp

/-- A count that gains has a positive throughput, and smaller counts before it. -/
theorem Gains.halts (h : Gains b n) : Halts b n := by
  obtain ⟨tps, best, hrun, hbest, hless, -⟩ := h
  obtain ⟨m, rfl⟩ : ∃ m, n = m + 2 := by
    cases n with
    | zero => cases hbest
    | succ n =>
      cases n with
      | zero => cases hbest
      | succ m => exact ⟨m, rfl⟩
  obtain ⟨top, htop, hle, -⟩ := bestRun_of_some hrun
  refine ⟨by omega, Option.isSome_of_eq_some hrun, top, htop, ?_⟩
  exact (zero_le.trans_lt hless).trans_le hle

end Search

/-- The search keeps to what it promises exactly when it has been halted before any count that
gains: it leaves the loop at the first count that could. -/
theorem benchmarkAutotune_keepsSearching_iff (b : Benchmarks) (modelPath : String) :
    KeepsSearching b modelPath ↔ ∀ n < 8, Gains b n → ∃ m < n, Halts b m := by
  obtain ⟨k, hloop, hleaves⟩ := forBreak_leaves (BackendSearch.addSession b) .new 8
  obtain ⟨hkept, hbroke⟩ := hleaves.iff (Halts b) (addSession_breaks_iff b)
  have hmeasured : (searchSessions b).2 = k := by rw [searchSessions, hloop]
  have hpos : ∀ n, Halts b n → k ≤ n := by
    intro n hhalts
    by_contra hlt
    exact hkept n (Nat.zero_lt_of_lt hhalts.1) (not_le.mp hlt) hhalts
  constructor
  · intro h n hn hgains
    have hle := hpos n hgains.halts
    rcases Nat.lt_or_eq_of_le hle with hlt | rfl
    · exact ⟨k, hlt, hbroke (by omega)⟩
    · have hnext := h.next k hn hmeasured.ge hgains
      omega
  · intro h
    constructor
    · intro n hn hle hgains
      obtain ⟨m, hlt, hhalts⟩ := h n hn hgains
      have hfirst := hpos m hhalts
      omega
    · intro hall
      obtain ⟨m, hlt, hhalts⟩ := h 2 (by omega) (hall 2 le_rfl (by omega))
      have hone := hhalts.1
      omega

/-- Every added session doubles the throughput. -/
def doubling : Benchmarks where
  llama sessions _ := some (2 ^ sessions.toNat)
  onnx _ _ := none

theorem benchmarkAutotune_stops_gaining :
    ¬∀ b modelPath, KeepsSearching b modelPath := by
  intro h
  have hmeasured : (searchSessions doubling).2 = 2 := by decide +kernel
  have hgains : Gains doubling 2 := ⟨4, 2, by decide +kernel⟩
  have hnext := (h doubling "m.gguf").next 2 (by omega) hmeasured.ge hgains
  omega

end LibEmbedding
