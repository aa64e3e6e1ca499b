import LibEmbedding.Foundation.Turns
import LibEmbedding.RerankerCreate

/-!
# A benchmark run

`lembed_benchmark_run` over one corpus: `bench_onnx` hands the texts out in batches of the size it
is given, `bench_llama` has as many threads as it is given share one counter, and both index into
the latencies they have measured.
-/

namespace LibEmbedding

open Foundation

-- ---------------------------------------------------------------------------
-- Corpora
-- ---------------------------------------------------------------------------

inductive CorpusArray
  | short
  | medium
  | long
  | veryLong
  | edge
  | multilingual
  deriving DecidableEq

def CorpusArray.size : CorpusArray → Nat
  | .short => 13
  | .medium => 10
  | .long => 6
  | .veryLong => 3
  | .edge => 19
  | .multilingual => 10

/-- A text by its array and its place there. -/
abbrev CorpusText := CorpusArray × Nat

def CorpusArray.texts (array : CorpusArray) : List CorpusText :=
  (List.range array.size).map fun i => (array, i)

/-- `get_all_texts` -/
def getAllTexts : List CorpusText :=
  CorpusArray.short.texts ++ CorpusArray.medium.texts ++ CorpusArray.long.texts ++
    CorpusArray.veryLong.texts

/-- `corpus_by_type` -/
def corpusByType (type : Int) : List CorpusText :=
  if type = 0 then CorpusArray.short.texts
  else if type = 1 then CorpusArray.medium.texts
  else if type = 2 then CorpusArray.long.texts
  else if type = 3 then CorpusArray.veryLong.texts
  else if type = 4 then getAllTexts
  else if type = 5 then CorpusArray.multilingual.texts
  else if type = 6 then CorpusArray.edge.texts
  else []

-- ---------------------------------------------------------------------------
-- The run
-- ---------------------------------------------------------------------------

/-- `lembed_backend_config_t`, the part that a run reads. -/
structure BenchmarkConfig where
  numThreads : CInt
  batchSize : CInt
  workers : CInt

structure BenchmarkMetrics where
  /-- Infinite where no time has passed. -/
  throughputDocsSec : Option ℚ
  latencyP50Ms : ℚ
  latencyP95Ms : ℚ
  loadTimeMs : ℚ
  peakMemoryMb : ℚ
  dim : Int
  numTexts : Int
  numErrors : Int
  deriving DecidableEq

/-- The backends and the clock: what loading a model comes to, which texts the pool throws on, and
the times that are measured. -/
structure BenchmarkHost where
  createOnnx : Bytes → CInt → Except Status Int
  loadLlama : Bytes → Int → Int → Option Int
  throwsOn : CorpusText → Bool
  loadTimeMs : ℚ
  elapsedMs : ℚ
  latencyMs : Nat → ℚ
  peakRssMb : ℚ

/-- `median_d` -/
def medianD (v : List ℚ) : Checked ℚ := get (v.mergeSort (· ≤ ·)) (v.length / 2)

/-- `percentile95` -/
def percentile95 (v : List ℚ) : Checked ℚ :=
  if v = [] then .ok 0
  else get (v.mergeSort (· ≤ ·))
    (min ((95 / 100 * (v.length : ℚ)).ceil.toNat - 1) (v.length - 1))

namespace BenchmarkHost

variable (host : BenchmarkHost)

/-- What a run reports, by the latencies of its first texts. -/
def metrics (texts : List CorpusText) (dim : Int) (loadTimeMs : ℚ) (latencies : List ℚ) :
    Checked BenchmarkMetrics := do
  let p50 ← medianD latencies
  let p95 ← percentile95 latencies
  return { throughputDocsSec :=
             if host.elapsedMs = 0 then none else some (texts.length / (host.elapsedMs / 1000))
           latencyP50Ms := p50
           latencyP95Ms := p95
           loadTimeMs
           peakMemoryMb := host.peakRssMb
           dim
           numTexts := texts.length
           numErrors := 0 }

/-- `lembed_text_embedding_embed(emb, texts.data() + off, n, ...)`: a pointer into the vector or
just behind it, and as many texts from there as are read. -/
def embedRange (texts : List CorpusText) (off n : Int) : Checked Unit := do
  ensure (0 ≤ off ∧ off ≤ texts.length) .outOfBounds
  ensure (off + n ≤ texts.length) .outOfBounds

/-- One batch: `off` before it and after it. -/
def onnxBatch (texts : List CorpusText) (bsz off : Int) : Checked Int := do
  let left ← subInt texts.length off
  embedRange texts off (min bsz left)
  addInt off bsz

/-- The latencies of the first twenty texts, each embedded by itself. -/
def latencies (texts : List CorpusText) (embed : CorpusText → Except Halt Unit) :
    Except Halt (List ℚ) :=
  forUpTo (min 20 texts.length) (fun measured i => do
    let text ← computed (get texts i)
    embed text
    return measured ++ [host.latencyMs i]) []

/-- `bench_onnx` -/
def benchOnnx (modelPath : Bytes) (config : BenchmarkConfig) (texts : List CorpusText)
    (choices : List Nat) : Option (Except Halt (Except Status BenchmarkMetrics)) :=
  match host.createOnnx modelPath config.numThreads with
  | .error s => some (.ok (.error s))
  | .ok dim =>
    let warmup : Checked Int := do
      embedRange texts 0 (min 4 texts.length)
      return 0
    around (computed warmup)
      (fun off => turns (fun off (_ : Nat) => computed (onnxBatch texts config.batchSize.val off))
        (fun off => (texts.length : Int) ≤ off) off choices)
      fun _ => do
        let measured ← host.latencies texts fun _ => .ok ()
        let m ← computed (host.metrics texts dim host.loadTimeMs measured)
        return .ok m

/-- The threads that still run, and the counter that they share. -/
structure Workers where
  idx : Int
  running : List Nat

/-- `pool.embed` -/
def poolEmbed (text : CorpusText) : Except Halt Unit :=
  if host.throwsOn text then .error .threw else .ok ()

/-- `texts[i]` -/
def textAt (texts : List CorpusText) (i : Int) : Checked CorpusText := do
  ensure (0 ≤ i) .outOfBounds
  get texts i.toNat

/-- The next step of one of the threads: `fetch_add`, which wraps, and then a text or the end of the
thread. An exception that leaves a thread ends the process. -/
def workerTurn (texts : List CorpusText) (s : Workers) (choice : Nat) : Except Halt Workers :=
  let i := s.idx
  let idx := Int.bmod (i + 1) (2 ^ 32)
  if (texts.length : Int) ≤ i then
    .ok { idx, running := s.running.eraseIdx (choice % s.running.length) }
  else do
    let text ← computed (textAt texts i)
    host.poolEmbed text
    return { s with idx }

def nSessions (config : BenchmarkConfig) : Int :=
  if 0 < config.workers.val then max 1 config.workers.val else max 1 config.batchSize.val

/-- `bench_llama` -/
def benchLlama (modelPath : Bytes) (config : BenchmarkConfig) (texts : List CorpusText)
    (choices : List Nat) : Option (Except Halt (Except Status BenchmarkMetrics)) :=
  let sessions := nSessions config
  match host.loadLlama modelPath sessions (max 1 config.numThreads.val) with
  | none => some (.ok (.error .llama))
  | some dim =>
    around
      (forUpTo (min sessions.toNat texts.length) (fun s i => do
        let text ← computed (get texts i)
        host.poolEmbed text
        return s) (⟨0, List.range sessions.toNat⟩ : Workers))
      (fun s => turns (host.workerTurn texts) (fun s => s.running.isEmpty) s choices)
      fun _ => do
        let measured ← host.latencies texts host.poolEmbed
        let m ← computed (host.metrics texts dim 0 measured)
        return .ok m

end BenchmarkHost

/-- `lembed_benchmark_result_t`, as a run fills it. Before a run succeeds the metrics are zero. -/
structure BenchmarkReport where
  modelName : Bytes
  backend : Bytes
  config : BenchmarkConfig
  metrics : Option BenchmarkMetrics

/-- The arguments of a run. Any pointer may be null. -/
structure BenchmarkCall where
  modelPath : Option Bytes
  backend : Option Bytes
  corpusType : Int
  config : Option BenchmarkConfig
  hasResult : Bool

namespace BenchmarkHost

variable (host : BenchmarkHost)

def benchBackend (modelPath backend : Bytes) (corpusType : Int) (config : BenchmarkConfig)
    (choices : List Nat) : Option (Except Halt (Except Status BenchmarkMetrics)) :=
  let texts := corpusByType corpusType
  if backend = ascii "onnx" then host.benchOnnx modelPath config texts choices
  else host.benchLlama modelPath config texts choices

/-- `lembed_benchmark_run` after some turns of its threads, `none` while it is still going. -/
def benchmarkRun (call : BenchmarkCall) (choices : List Nat) :
    Option (Except Halt (Status × Option BenchmarkReport)) :=
  match call.modelPath, call.backend, call.config, call.hasResult with
  | some modelPath, some backend, some config, true =>
    (host.benchBackend modelPath backend call.corpusType config choices).map fun ended => do
      let metrics ← ended
      let result := fun metrics => some
        { modelName := (RerankerLoaders.filename modelPath).take 127
          backend := backend.take 31, config, metrics : BenchmarkReport }
      match metrics with
      | .ok metrics => return (.ok, result (some metrics))
      | .error s => return (s, result none)
  | _, _, _, _ => some (.ok (.invalidArgument, none))

end BenchmarkHost

-- ---------------------------------------------------------------------------
-- What a run indexes
-- ---------------------------------------------------------------------------

theorem corpus_ne_nil_iff (type : Int) : corpusByType type ≠ [] ↔ 0 ≤ type ∧ type ≤ 6 := by
  by_cases hknown : 0 ≤ type ∧ type ≤ 6
  · obtain ⟨hlow, hhigh⟩ := hknown
    have hne : corpusByType type ≠ [] := by interval_cases type <;> decide
    exact iff_of_true hne ⟨hlow, hhigh⟩
  · have hnil : corpusByType type = [] := by
      unfold corpusByType
      repeat' rw [if_neg (by omega)]
    exact iff_of_false (not_not.mpr hnil) hknown

theorem length_corpus_le (type : Int) : (corpusByType type).length ≤ 32 := by
  by_cases hknown : 0 ≤ type ∧ type ≤ 6
  · obtain ⟨hlow, hhigh⟩ := hknown
    interval_cases type <;> decide
  · rw [not_not.mp (mt (corpus_ne_nil_iff type).mp hknown)]
    decide

theorem computed_error_faulted {x : Checked β} {e : Halt} (h : computed x = .error e) :
    ∃ fault, e = .faulted fault := by
  cases x with
  | ok b => cases h
  | error fault =>
    cases h
    exact ⟨fault, rfl⟩

theorem medianD_ok {v : List ℚ} (h : v ≠ []) : ∃ x, medianD v = .ok x := by
  have hpos := List.length_pos_of_ne_nil h
  have hlt : v.length / 2 < (v.mergeSort (· ≤ ·)).length := by
    rw [List.length_mergeSort]
    omega
  exact ⟨_, get_ok.mpr (List.getElem?_eq_getElem hlt)⟩

theorem percentile95_ok (v : List ℚ) : ∃ x, percentile95 v = .ok x := by
  unfold percentile95
  by_cases h : v = []
  · exact ⟨0, if_pos h⟩
  · rw [if_neg h]
    have hpos := List.length_pos_of_ne_nil h
    refine ⟨_, get_ok.mpr (List.getElem?_eq_getElem ?_)⟩
    rw [List.length_mergeSort]
    omega

namespace BenchmarkHost

variable {host : BenchmarkHost} {texts : List CorpusText}

theorem metrics_noFault {measured : List ℚ} (h : measured ≠ []) (dim : Int) (loadTimeMs : ℚ) :
    NoFault (computed (host.metrics texts dim loadTimeMs measured)) := by
  obtain ⟨p50, hp50⟩ := medianD_ok h
  obtain ⟨p95, hp95⟩ := percentile95_ok measured
  rw [metrics, hp50, ok_bind, hp95, ok_bind]
  exact noFault_ok _

theorem metrics_empty (dim : Int) (loadTimeMs : ℚ) :
    host.metrics texts dim loadTimeMs [] = .error .outOfBounds := by
  rw [metrics, medianD, List.mergeSort_nil]
  rfl

/-- A loop over the first texts: it throws on one of them, or ends with what its steps come to. -/
theorem firstTexts_ends {embed : CorpusText → Except Halt Unit} {next : γ → Nat → γ}
    {I : Nat → γ → Prop} (hembed : ∀ t, embed t = .ok () ∨ embed t = .error .threw) {c : γ}
    (hstart : I 0 c) (hnext : ∀ i a, I i a → I (i + 1) (next a i)) {n : Nat}
    (hn : n ≤ texts.length) :
    (forUpTo n (fun a i => do
      let text ← computed (get texts i)
      embed text
      return next a i) c = .error .threw ∧ ∃ t, embed t = .error .threw) ∨
    ∃ a, forUpTo n (fun a i => do
      let text ← computed (get texts i)
      embed text
      return next a i) c = .ok a ∧ I n a := by
  induction n with
  | zero => exact .inr ⟨c, rfl, hstart⟩
  | succ n ih =>
    have hget : get texts n = .ok texts[n] := get_ok.mpr (List.getElem?_eq_getElem hn)
    rw [forUpTo_succ]
    rcases ih (Nat.le_of_succ_le hn) with ⟨hthrew, ht⟩ | ⟨a, ha, hi⟩
    · rw [hthrew]
      exact .inl ⟨rfl, ht⟩
    · rw [ha, ok_bind, hget, computed_ok, ok_bind]
      rcases hembed texts[n] with hok | hthrew
      · rw [hok]
        exact .inr ⟨next a n, rfl, hnext n a hi⟩
      · rw [hthrew]
        exact .inl ⟨rfl, _, hthrew⟩

theorem latencies_end {embed : CorpusText → Except Halt Unit}
    (hembed : ∀ t, embed t = .ok () ∨ embed t = .error .threw) :
    (host.latencies texts embed = .error .threw ∧ ∃ t, embed t = .error .threw) ∨
      ∃ measured, host.latencies texts embed = .ok measured ∧
        measured.length = min 20 texts.length := by
  have hnext : ∀ i (measured : List ℚ), measured.length = i →
      (measured ++ [host.latencyMs i]).length = i + 1 := by
    intro i measured h
    rw [List.length_append, h]
    rfl
  exact firstTexts_ends (I := fun i (measured : List ℚ) => measured.length = i) hembed rfl hnext
    (Nat.min_le_right 20 texts.length)

/-- What comes after the texts are embedded, where there are any. -/
theorem report_noFault {embed : CorpusText → Except Halt Unit}
    (hembed : ∀ t, embed t = .ok () ∨ embed t = .error .threw)
    (hne : texts ≠ []) (dim : Int) (loadTimeMs : ℚ) :
    NoFault (do
      let measured ← host.latencies texts embed
      let m ← computed (host.metrics texts dim loadTimeMs measured)
      return (Except.ok m : Except Status BenchmarkMetrics)) := by
  rcases latencies_end hembed with
    ⟨hthrew, -⟩ | ⟨measured, hm, hlength⟩
  · rw [hthrew]
    exact noFault_threw
  · have hpos := List.length_pos_of_ne_nil hne
    have hmeasured : measured ≠ [] := List.length_pos_iff.mp (by omega)
    rw [hm, ok_bind]
    exact (metrics_noFault hmeasured dim loadTimeMs).bind fun m _ => noFault_ok _

/-- Without a text the median is read from an empty vector. -/
theorem report_empty (embed : CorpusText → Except Halt Unit) (dim : Int) (loadTimeMs : ℚ) :
    (do
      let measured ← host.latencies [] embed
      let m ← computed (host.metrics [] dim loadTimeMs measured)
      return (Except.ok m : Except Status BenchmarkMetrics)) = .error (.faulted .outOfBounds) := by
  have hnone : host.latencies [] embed = .ok [] := rfl
  rw [hnone, ok_bind, metrics_empty, computed_error]
  rfl

-- ---------------------------------------------------------------------------
-- Batches
-- ---------------------------------------------------------------------------

/-- The loop is at the start or at least one batch behind it. -/
def AtBatch (bsz off : Int) : Prop := 0 ≤ off ∧ (off = 0 ∨ bsz ≤ off)

theorem embedRange_ok {off n : Int} (hoff : 0 ≤ off) (hle : off ≤ texts.length)
    (hend : off + n ≤ texts.length) : embedRange texts off n = .ok () := by
  rw [embedRange, ensure_pos ⟨hoff, hle⟩, ok_bind, ensure_pos hend]

theorem onnxBatch_ok {bsz off : Int} (hfew : texts.length ≤ 32) (hbsz : 0 < bsz)
    (hmax : bsz ≤ intMax) (hoff : AtBatch bsz off) (hlt : off < texts.length) :
    onnxBatch texts bsz off = .ok (off + bsz) ∧ AtBatch bsz (off + bsz) := by
  obtain ⟨hpos, hstart⟩ := hoff
  have hmax : bsz ≤ 2147483647 := hmax
  have hleft : subInt texts.length off = .ok (texts.length - off) :=
    narrow_eq (fitsInt_iff.mpr ⟨by omega, by omega⟩)
  have hnext : addInt off bsz = .ok (off + bsz) :=
    narrow_eq (fitsInt_iff.mpr ⟨by omega, by omega⟩)
  refine ⟨?_, by omega, by omega⟩
  rw [onnxBatch, hleft, ok_bind, embedRange_ok hpos hlt.le (by omega), ok_bind, hnext]

theorem onnx_ends {bsz : Int} (hfew : texts.length ≤ 32) (hbsz : 0 < bsz) (hmax : bsz ≤ intMax)
    {choices : List Nat} (henough : texts.length < choices.length) :
    EndedWell (turns (fun off (_ : Nat) => computed (onnxBatch texts bsz off))
      (fun off => (texts.length : Int) ≤ off) 0 choices) := by
  have hstep : ∀ off (_ : Nat), AtBatch bsz off → decide ((texts.length : Int) ≤ off) = false →
      (∃ e, computed (onnxBatch texts bsz off) = .error e ∧ False) ∨
        ∃ next, computed (onnxBatch texts bsz off) = .ok next ∧ AtBatch bsz next ∧
          (texts.length - next).toNat < (texts.length - off).toNat := by
    intro off _ hoff hopen
    have hlt : off < texts.length := not_le.mp (of_decide_eq_false hopen)
    obtain ⟨hnext, hbatch⟩ := onnxBatch_ok hfew hbsz hmax hoff hlt
    exact .inr ⟨off + bsz, by rw [hnext]; rfl, hbatch, by omega⟩
  have hstart : AtBatch bsz 0 := ⟨le_refl 0, .inl rfl⟩
  have hfirst : ((texts.length : Int) - 0).toNat < choices.length := by omega
  rcases turns_ends _ hstep hstart hfirst with ⟨_, -, hfalse⟩ | ⟨off, hoff, -⟩
  · exact hfalse.elim
  · exact ⟨.ok off, hoff, noFault_ok off⟩

/-- With no texts to a batch the loop stays where it is, with fewer it leaves the vector. -/
theorem onnx_fails {bsz : Int} (hne : texts ≠ []) (hbsz : bsz ≤ 0) {choices : List Nat}
    (h : turns (fun off (_ : Nat) => computed (onnxBatch texts bsz off))
      (fun off => (texts.length : Int) ≤ off) 0 choices = some ended) :
    ∃ fault, ended = .error (.faulted fault) := by
  have hpos := List.length_pos_of_ne_nil hne
  have hopen : ∀ off : Int, off ≤ 0 → decide ((texts.length : Int) ≤ off) = false :=
    fun off hoff => decide_eq_false (by omega)
  have hstep : ∀ off (_ : Nat), off ≤ 0 →
      (∃ e, computed (onnxBatch texts bsz off) = .error e ∧ ∃ fault, e = .faulted fault) ∨
        ∃ next, computed (onnxBatch texts bsz off) = .ok next ∧ next ≤ 0 := by
    intro off _ hoff
    cases hbatch : onnxBatch texts bsz off with
    | error fault => exact .inl ⟨.faulted fault, rfl, fault, rfl⟩
    | ok next =>
      simp only [onnxBatch, bind_ok] at hbatch
      obtain ⟨left, -, u, hrange, hadd⟩ := hbatch
      obtain ⟨-, rfl⟩ := narrow_ok.mp hadd
      exact .inr ⟨off + bsz, rfl, by omega⟩
  obtain ⟨e, rfl, fault, rfl⟩ := turns_fails hopen hstep (le_refl 0) h
  exact ⟨fault, rfl⟩

-- ---------------------------------------------------------------------------
-- Threads
-- ---------------------------------------------------------------------------

/-- The counter has not wrapped while a thread still runs: every thread that has ended has taken
one number, and so has every text. -/
def CounterFits (texts : List CorpusText) (n : Nat) (s : Workers) : Prop :=
  s.running = [] ∨ 0 ≤ s.idx ∧ s.idx + s.running.length ≤ texts.length + n ∧ s.running.length ≤ n

/-- How many more numbers are taken. -/
def numbersLeft (texts : List CorpusText) (s : Workers) : Nat :=
  if s.running = [] then 0 else (texts.length - s.idx).toNat + s.running.length

theorem poolEmbed_cases (text : CorpusText) :
    host.poolEmbed text = .ok () ∨ host.poolEmbed text = .error .threw := by
  unfold poolEmbed
  split
  · exact .inr rfl
  · exact .inl rfl

/-- The warmup of the pool leaves the threads and their counter as they are. -/
theorem warmup_ends (host : BenchmarkHost) (s : Workers) {n : Nat} (hn : n ≤ texts.length) :
    (forUpTo n (fun s i => do
      let text ← computed (get texts i)
      host.poolEmbed text
      return s) s = .error .threw ∧ ∃ t, host.poolEmbed t = .error .threw) ∨
    ∃ t, forUpTo n (fun s i => do
      let text ← computed (get texts i)
      host.poolEmbed text
      return s) s = .ok t ∧ t = s :=
  firstTexts_ends (I := fun _ t => t = s) poolEmbed_cases rfl (fun _ _ h => h) hn

theorem bmod_next {i : Int} (hi : 0 ≤ i) (hlt : i + 1 < 2 ^ 31) :
    Int.bmod (i + 1) (2 ^ 32) = i + 1 :=
  Int.bmod_eq_of_le (by omega) (by omega)

theorem length_eraseTurn {running : List Nat} (h : running ≠ []) (choice : Nat) :
    (running.eraseIdx (choice % running.length)).length + 1 = running.length := by
  have hpos := List.length_pos_of_ne_nil h
  rw [List.length_eraseIdx_of_lt (Nat.mod_lt _ hpos)]
  omega

theorem textAt_ok {i : Int} (hi : 0 ≤ i) (hlt : i < texts.length) :
    ∃ text, textAt texts i = .ok text := by
  have hplace : i.toNat < texts.length := by omega
  refine ⟨texts[i.toNat], ?_⟩
  rw [textAt, ensure_pos hi, ok_bind]
  exact get_ok.mpr (List.getElem?_eq_getElem hplace)

/-- One turn of a thread while the counter has room. -/
theorem workerTurn_fits {n : Nat} (hroom : texts.length + n ≤ 2 ^ 31) (hfew : texts.length ≤ 32)
    {s : Workers} (hs : CounterFits texts n s) (hopen : s.running ≠ []) (choice : Nat) :
    (∃ e, host.workerTurn texts s choice = .error e ∧ e = .threw) ∨
      ∃ t, host.workerTurn texts s choice = .ok t ∧ CounterFits texts n t ∧
        numbersLeft texts t < numbersLeft texts s := by
  obtain ⟨hidx, hnumbers, hrunning⟩ := hs.resolve_left hopen
  have hpos := List.length_pos_of_ne_nil hopen
  have hleft : numbersLeft texts s = (texts.length - s.idx).toNat + s.running.length :=
    if_neg hopen
  unfold workerTurn
  dsimp only
  by_cases hend : (texts.length : Int) ≤ s.idx
  · rw [if_pos hend]
    have hlength := length_eraseTurn hopen choice
    refine .inr ⟨_, rfl, ?_, ?_⟩
    · by_cases hlast : s.running.eraseIdx (choice % s.running.length) = []
      · exact .inl hlast
      · have hmore := List.length_pos_of_ne_nil hlast
        refine .inr ⟨?_, ?_, by dsimp only; omega⟩
        · dsimp only
          rw [bmod_next hidx (by omega)]
          omega
        · dsimp only
          rw [bmod_next hidx (by omega)]
          omega
    · rw [hleft, numbersLeft]
      split
      · omega
      · rename_i hlast
        have hmore := List.length_pos_of_ne_nil hlast
        dsimp only at hmore ⊢
        rw [bmod_next hidx (by omega)]
        omega
  · rw [if_neg hend]
    have hlt : s.idx < texts.length := not_le.mp hend
    obtain ⟨text, htext⟩ := textAt_ok hidx hlt
    rw [htext, computed_ok, ok_bind]
    unfold poolEmbed
    split
    · exact .inl ⟨.threw, rfl, rfl⟩
    · refine .inr ⟨_, rfl, .inr ?_, ?_⟩
      · dsimp only
        rw [bmod_next hidx (by omega)]
        omega
      · rw [hleft, numbersLeft, if_neg hopen]
        dsimp only
        rw [bmod_next hidx (by omega)]
        omega

theorem workers_end {n : Nat} (hroom : texts.length + n ≤ 2 ^ 31) (hfew : texts.length ≤ 32)
    {choices : List Nat} (henough : texts.length + n < choices.length) :
    EndedWell (turns (host.workerTurn texts) (fun s => s.running.isEmpty) ⟨0, List.range n⟩
      choices) := by
  have hstart : CounterFits texts n ⟨0, List.range n⟩ := by
    refine .inr ⟨le_refl 0, ?_, ?_⟩
    · dsimp only
      rw [List.length_range]
      omega
    · exact (List.length_range).le
  have hfirst : numbersLeft texts ⟨0, List.range n⟩ < choices.length := by
    unfold numbersLeft
    split
    · omega
    · dsimp only
      rw [List.length_range]
      omega
  have hstep : ∀ s choice, CounterFits texts n s → s.running.isEmpty = false →
      (∃ e, host.workerTurn texts s choice = .error e ∧ e = .threw) ∨
        ∃ t, host.workerTurn texts s choice = .ok t ∧ CounterFits texts n t ∧
          numbersLeft texts t < numbersLeft texts s := by
    intro s choice hs hopen
    have hrunning : s.running ≠ [] := by
      rintro hnil
      rw [hnil] at hopen
      cases hopen
    exact workerTurn_fits hroom hfew hs hrunning choice
  rcases turns_ends _ hstep hstart hfirst with ⟨_, hthrew, rfl⟩ | ⟨s, hs, -⟩
  · exact ⟨_, hthrew, noFault_threw⟩
  · exact ⟨.ok s, hs, noFault_ok s⟩

/-- More threads run than numbers are left, or the counter has wrapped. -/
def CounterWraps (texts : List CorpusText) (n : Nat) (s : Workers) : Prop :=
  s.running ≠ [] ∧ s.idx < 2 ^ 31 ∧
    (s.idx < 0 ∨ s.running.length + (s.idx - texts.length).toNat = n)

theorem textAt_negative {i : Int} (hi : i < 0) : textAt texts i = .error .outOfBounds := by
  rw [textAt, ensure, if_neg (not_le.mpr hi)]
  rfl

theorem workerTurn_wraps {n : Nat} (hroom : 2 ^ 31 < texts.length + n) (hfew : texts.length ≤ 32)
    (hthrows : ∀ text, host.throwsOn text = false) {s : Workers} (hs : CounterWraps texts n s)
    (choice : Nat) :
    (∃ e, host.workerTurn texts s choice = .error e ∧ ∃ fault, e = .faulted fault) ∨
      ∃ t, host.workerTurn texts s choice = .ok t ∧ CounterWraps texts n t := by
  obtain ⟨hopen, hmax, hcounter⟩ := hs
  unfold workerTurn
  dsimp only
  by_cases hnegative : s.idx < 0
  · rw [if_neg (by omega), textAt_negative hnegative]
    exact .inl ⟨_, rfl, .outOfBounds, rfl⟩
  · have hrunning := hcounter.resolve_left hnegative
    by_cases hend : (texts.length : Int) ≤ s.idx
    · rw [if_pos hend]
      have hlength := length_eraseTurn hopen choice
      have hmore : s.running.eraseIdx (choice % s.running.length) ≠ [] := by
        intro hnil
        rw [hnil, List.length_nil] at hlength
        omega
      refine .inr ⟨_, rfl, hmore, ?_, ?_⟩
      · exact Int.bmod_lt (by decide)
      · dsimp only
        by_cases hlast : s.idx + 1 < 2 ^ 31
        · rw [bmod_next (by omega) hlast]
          omega
        · left
          have hwrapped : s.idx = 2147483647 := by omega
          rw [hwrapped]
          decide
    · rw [if_neg hend]
      obtain ⟨text, htext⟩ := textAt_ok (not_lt.mp hnegative) (not_le.mp hend)
      rw [htext, computed_ok, ok_bind, poolEmbed, hthrows text, if_neg Bool.false_ne_true, ok_bind]
      refine .inr ⟨_, rfl, hopen, ?_, ?_⟩
      · exact Int.bmod_lt (by decide)
      · dsimp only
        rw [bmod_next (by omega) (by omega)]
        omega

theorem workers_fail {n : Nat} (hroom : 2 ^ 31 < texts.length + n) (hfew : texts.length ≤ 32)
    (hthrows : ∀ text, host.throwsOn text = false) {choices : List Nat}
    (h : turns (host.workerTurn texts) (fun s => s.running.isEmpty) ⟨0, List.range n⟩ choices =
      some ended) : ∃ fault, ended = .error (.faulted fault) := by
  have hstart : CounterWraps texts n ⟨0, List.range n⟩ := by
    refine ⟨?_, show (0 : Int) < 2 ^ 31 by decide, .inr ?_⟩
    · rw [Ne, List.range_eq_nil]
      omega
    · dsimp only
      rw [List.length_range]
      omega
  have hopen : ∀ s, CounterWraps texts n s → s.running.isEmpty = false := by
    intro s hs
    rw [Bool.eq_false_iff, Ne, List.isEmpty_iff]
    exact hs.1
  obtain ⟨e, rfl, fault, rfl⟩ := turns_fails hopen
    (fun s choice hs => workerTurn_wraps hroom hfew hthrows hs choice) hstart h
  exact ⟨fault, rfl⟩

/-- Where nothing throws, a thread that fails has left the vector. -/
theorem workerTurn_error (hthrows : ∀ text, host.throwsOn text = false) {s : Workers}
    {choice : Nat} {e : Halt} (h : host.workerTurn texts s choice = .error e) :
    ∃ fault, e = .faulted fault := by
  unfold workerTurn at h
  dsimp only at h
  split at h
  · cases h
  · cases htext : textAt texts s.idx with
    | error fault =>
      rw [htext] at h
      cases h
      exact ⟨fault, rfl⟩
    | ok text =>
      rw [htext, computed_ok, ok_bind, poolEmbed, hthrows text] at h
      cases h

-- ---------------------------------------------------------------------------
-- Whole runs
-- ---------------------------------------------------------------------------

theorem benchOnnx_ends (modelPath : Bytes) (config : BenchmarkConfig) (hfew : texts.length ≤ 32)
    (hne : texts ≠ []) (hbatch : 0 < config.batchSize.val) {choices : List Nat}
    (henough : texts.length < choices.length) :
    EndedWell (host.benchOnnx modelPath config texts choices) := by
  unfold benchOnnx
  cases host.createOnnx modelPath config.numThreads with
  | error s => exact ⟨_, rfl, noFault_ok _⟩
  | ok dim =>
    have hwarmup : embedRange texts 0 (min 4 texts.length) = .ok () :=
      embedRange_ok (le_refl 0) (by omega) (by omega)
    dsimp only
    rw [hwarmup, ok_bind]
    refine EndedWell.around (noFault_ok _) (fun off hoff => ?_)
      fun _ => report_noFault (fun _ => .inl rfl) hne dim host.loadTimeMs
    cases hoff
    exact onnx_ends hfew hbatch config.batchSize.property.2 henough

theorem benchLlama_ends (modelPath : Bytes) (config : BenchmarkConfig) (hfew : texts.length ≤ 32)
    (hne : texts ≠ []) (hroom : texts.length + nSessions config ≤ 2 ^ 31) {choices : List Nat}
    (henough : texts.length + (nSessions config).toNat < choices.length) :
    EndedWell (host.benchLlama modelPath config texts choices) := by
  unfold benchLlama
  dsimp only
  cases host.loadLlama modelPath (nSessions config) (max 1 config.numThreads.val) with
  | none => exact ⟨_, rfl, noFault_ok _⟩
  | some dim =>
    dsimp only
    have hwarmup := warmup_ends host ⟨0, List.range (nSessions config).toNat⟩
      (Nat.min_le_right (nSessions config).toNat texts.length)
    refine EndedWell.around ?_ (fun s hs => ?_)
      fun _ => report_noFault poolEmbed_cases hne dim 0
    · rcases hwarmup with ⟨hthrew, -⟩ | ⟨t, ht, -⟩
      · rw [hthrew]
        exact noFault_threw
      · rw [ht]
        exact noFault_ok t
    · rcases hwarmup with ⟨hthrew, -⟩ | ⟨t, ht, rfl⟩
      · rw [hthrew] at hs
        cases hs
      · rw [ht] at hs
        cases hs
        exact workers_end (by omega) hfew henough

theorem benchOnnx_fails {modelPath : Bytes} {config : BenchmarkConfig} {dim : Int}
    (hload : host.createOnnx modelPath config.numThreads = .ok dim)
    (hbad : texts = [] ∨ config.batchSize.val ≤ 0) (choices : List Nat) :
    ¬ EndedWell (host.benchOnnx modelPath config texts choices) := by
  have hwarmup : embedRange texts 0 (min 4 texts.length) = .ok () :=
    embedRange_ok (le_refl 0) (by omega) (by omega)
  unfold benchOnnx
  rw [hload]
  dsimp only
  rw [hwarmup, ok_bind]
  refine not_endedWell_around rfl fun x hx => ?_
  by_cases hempty : texts = []
  · subst hempty
    cases x with
    | ok off =>
      rw [ok_bind, report_empty]
      exact fun hnone => hnone _ rfl
    | error e =>
      obtain ⟨fault, rfl⟩ := turns_error (fun _ _ _ h => computed_error_faulted h) hx
      exact NoFault.not_bind ⟨fault, rfl⟩ _
  · exact NoFault.not_bind (onnx_fails hempty (hbad.resolve_left hempty) hx) _

theorem benchLlama_fails {modelPath : Bytes} {config : BenchmarkConfig} {dim : Int}
    (hload : host.loadLlama modelPath (nSessions config) (max 1 config.numThreads.val) = some dim)
    (hthrows : ∀ text, host.throwsOn text = false) (hfew : texts.length ≤ 32)
    (hbad : texts = [] ∨ 2 ^ 31 < texts.length + nSessions config) (choices : List Nat) :
    ¬ EndedWell (host.benchLlama modelPath config texts choices) := by
  have hembed : ∀ text, host.poolEmbed text = .ok () := by
    intro text
    rw [poolEmbed, hthrows text]
    rfl
  have hwarmup := warmup_ends host ⟨0, List.range (nSessions config).toNat⟩
    (Nat.min_le_right (nSessions config).toNat texts.length)
  unfold benchLlama
  dsimp only
  rw [hload]
  dsimp only
  rcases hwarmup with ⟨-, text, hthrew⟩ | ⟨t, ht, rfl⟩
  · rw [hembed text] at hthrew
    cases hthrew
  · refine not_endedWell_around ht fun x hx => ?_
    by_cases hempty : texts = []
    · subst hempty
      cases x with
      | ok s =>
        rw [ok_bind, report_empty]
        exact fun hnone => hnone _ rfl
      | error e =>
        obtain ⟨fault, rfl⟩ := turns_error (fun _ _ _ h => workerTurn_error hthrows h) hx
        exact NoFault.not_bind ⟨fault, rfl⟩ _
    · have hmany := hbad.resolve_left hempty
      exact NoFault.not_bind (workers_fail (by omega) hfew hthrows hx) _

end BenchmarkHost

/-- A run over the corpus comes to an end, and indexes nothing outside its vectors, in whatever
order the threads take their turns and whatever the model does. -/
def BenchmarkCall.EndsInBounds (call : BenchmarkCall) : Prop :=
  ∀ host : BenchmarkHost, ∃ bound, ∀ choices : List Nat, bound ≤ choices.length →
    EndedWell (host.benchmarkRun call choices)

/-- There are texts, a batch takes some of them, and the counter of the threads does not wrap. -/
def BenchmarkCall.Safe (call : BenchmarkCall) : Prop :=
  ∀ modelPath backend config, call.modelPath = some modelPath → call.backend = some backend →
    call.config = some config → call.hasResult = true →
    (0 ≤ call.corpusType ∧ call.corpusType ≤ 6) ∧
      if backend = ascii "onnx" then 0 < config.batchSize.val
      else (corpusByType call.corpusType).length + BenchmarkHost.nSessions config ≤ 2 ^ 31

namespace BenchmarkHost

theorem benchmarkRun_endedWell_iff (host : BenchmarkHost) {call : BenchmarkCall}
    {modelPath backend : Bytes} {config : BenchmarkConfig} (hpath : call.modelPath = some modelPath)
    (hbackend : call.backend = some backend) (hconfig : call.config = some config)
    (hresult : call.hasResult = true) (choices : List Nat) :
    EndedWell (host.benchmarkRun call choices) ↔
      EndedWell (host.benchBackend modelPath backend call.corpusType config choices) := by
  unfold benchmarkRun
  rw [hpath, hbackend, hconfig, hresult]
  refine endedWell_map fun metrics => ?_
  cases metrics with
  | ok m => exact ⟨_, rfl⟩
  | error s => exact ⟨_, rfl⟩

/-- A call with a null pointer is refused. -/
theorem benchmarkRun_refused (host : BenchmarkHost) {call : BenchmarkCall}
    (h : ¬ ∃ modelPath backend config, call.modelPath = some modelPath ∧
      call.backend = some backend ∧ call.config = some config ∧ call.hasResult = true)
    (choices : List Nat) :
    host.benchmarkRun call choices = some (.ok (.invalidArgument, none)) := by
  unfold benchmarkRun
  split
  · rename_i modelPath backend config hpath hbackend hconfig hresult
    exact absurd ⟨modelPath, backend, config, hpath, hbackend, hconfig, hresult⟩ h
  · rfl

/-- A model that loads at once and embeds whatever it is given. -/
def untroubled : BenchmarkHost where
  createOnnx _ _ := .ok 0
  loadLlama _ _ _ := some 0
  throwsOn _ := false
  loadTimeMs := 0
  elapsedMs := 0
  latencyMs _ := 0
  peakRssMb := 0

end BenchmarkHost

open BenchmarkHost in
theorem BenchmarkCall.endsInBounds_iff (call : BenchmarkCall) :
    call.EndsInBounds ↔ call.Safe := by
  constructor
  · intro h modelPath backend config hpath hbackend hconfig hresult
    obtain ⟨bound, hended⟩ := h untroubled
    have hrun := hended (List.replicate bound 0) (List.length_replicate).ge
    rw [benchmarkRun_endedWell_iff untroubled hpath hbackend hconfig hresult] at hrun
    by_contra hunsafe
    rw [Decidable.not_and_iff_or_not, ← corpus_ne_nil_iff, not_not] at hunsafe
    unfold benchBackend at hrun
    dsimp only at hrun
    split at hrun
    · rename_i honnx
      rw [if_pos honnx, not_lt] at hunsafe
      exact benchOnnx_fails rfl hunsafe _ hrun
    · rename_i hllama
      rw [if_neg hllama, not_le] at hunsafe
      exact benchLlama_fails rfl (fun _ => rfl) (length_corpus_le _) hunsafe _ hrun
  · intro hsafe host
    by_cases hargs : ∃ modelPath backend config, call.modelPath = some modelPath ∧
      call.backend = some backend ∧ call.config = some config ∧ call.hasResult = true
    · obtain ⟨modelPath, backend, config, hpath, hbackend, hconfig, hresult⟩ := hargs
      obtain ⟨hcorpus, hfits⟩ := hsafe modelPath backend config hpath hbackend hconfig hresult
      have hfew := length_corpus_le call.corpusType
      refine ⟨33 + (nSessions config).toNat, fun choices henough => ?_⟩
      rw [benchmarkRun_endedWell_iff host hpath hbackend hconfig hresult]
      unfold benchBackend
      dsimp only
      split
      · rename_i honnx
        rw [if_pos honnx] at hfits
        exact benchOnnx_ends modelPath config hfew ((corpus_ne_nil_iff _).mpr hcorpus) hfits
          (by omega)
      · rename_i hllama
        rw [if_neg hllama] at hfits
        exact benchLlama_ends modelPath config hfew ((corpus_ne_nil_iff _).mpr hcorpus) hfits
          (by omega)
    · refine ⟨0, fun choices _ => ?_⟩
      rw [benchmarkRun_refused host hargs]
      exact ⟨_, rfl, noFault_ok _⟩

def onnxRun (corpusType batchSize : Int) : BenchmarkCall where
  modelPath := some (ascii "model.onnx")
  backend := some (ascii "onnx")
  corpusType
  config := some { numThreads := clamp 1, batchSize := clamp batchSize, workers := clamp 0 }
  hasResult := true

theorem onnxRun_fails {corpusType batchSize : Int}
    (hbad : corpusByType corpusType = [] ∨ (clamp batchSize).val ≤ 0) :
    ¬ (onnxRun corpusType batchSize).EndsInBounds := by
  intro h
  obtain ⟨bound, hended⟩ := h BenchmarkHost.untroubled
  have hrun := hended (List.replicate bound 0) (List.length_replicate).ge
  rw [BenchmarkHost.benchmarkRun_endedWell_iff _ rfl rfl rfl rfl] at hrun
  unfold BenchmarkHost.benchBackend at hrun
  dsimp only at hrun
  rw [if_pos rfl] at hrun
  exact BenchmarkHost.benchOnnx_fails rfl hbad _ hrun

/-- Batches of no texts, batches of fewer, and an unknown corpus. -/
theorem onnxRun_unsafe :
    ¬ (onnxRun 0 0).EndsInBounds ∧ ¬ (onnxRun 0 (-1)).EndsInBounds ∧
      ¬ (onnxRun 7 8).EndsInBounds :=
  ⟨onnxRun_fails (.inr (by decide)), onnxRun_fails (.inr (by decide)),
    onnxRun_fails (.inl (by decide))⟩

end LibEmbedding
