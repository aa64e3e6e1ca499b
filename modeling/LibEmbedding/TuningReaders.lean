import LibEmbedding.Foundation.Counted
import LibEmbedding.RerankerTuning
import LibEmbedding.TextTuningCache

/-!
# Complete stored tunings

`read_text_cache` and `read_reranker_cache` are one reader over different fields: it takes every
line for the first field that it finds there, and a file with as many such lines as there are
fields for a complete one.
-/

namespace LibEmbedding

open Foundation

-- ---------------------------------------------------------------------------
-- Readers that count
-- ---------------------------------------------------------------------------

/-- A field of a stored tuning, an `int` or a double. -/
structure TuningField where
  key : Bytes
  isInt : Bool
  deriving DecidableEq

def TuningField.isOn (field : TuningField) (line : Bytes) : Bool :=
  if field.isInt then (jsonInt line field.key).isSome else (jsonNumber line field.key).isSome

/-- The field that a line is read as. -/
def fieldOn (fields : List TuningField) (line : Bytes) : Option TuningField :=
  fields.find? (·.isOn line)

theorem mem_of_fieldOn {fields : List TuningField} (line : Bytes) (field : TuningField)
    (h : fieldOn fields line = some field) : field ∈ fields := List.mem_of_find?_eq_some h

/-- What is read has a line of its own for every field. -/
def TakesComplete (fields : List TuningField) (read : Bytes → CacheIdentity → Option ρ)
    (content : Bytes) (id : CacheIdentity) : Prop :=
  ∀ result, read content id = some result → Covers (fieldOn fields) fields (linesOf content)

/-- Lines that repeat a field do not make up for the fields that are missing. -/
def RepeatsTell (fields : List TuningField) (content : Bytes) : Prop :=
  missing (fieldOn fields) fields (linesOf content) = 0 ∨
    repeats (fieldOn fields) fields (linesOf content) <
      missing (fieldOn fields) fields (linesOf content)

structure CountingReader (σ ρ : Type) where
  fields : List TuningField
  start : σ
  readLine : σ → Bytes → σ
  found : σ → Nat
  result : σ → ρ

namespace CountingReader

variable {σ ρ : Type} (R : CountingReader σ ρ)

def read (content : Bytes) (id : CacheIdentity) : Option ρ :=
  if CacheIdentity.matches content id = true then
    let st := (linesOf content).foldl R.readLine R.start
    if R.found st < R.fields.length then none else some (R.result st)
  else none

/-- It counts the lines that are read as a field. -/
structure Counts : Prop where
  nodup : R.fields.Nodup
  start : R.found R.start = 0
  step : ∀ st line, R.found (R.readLine st line) =
    R.found st + if (fieldOn R.fields line).isSome then 1 else 0

variable {R}

theorem Counts.foldl (h : R.Counts) (lines : List Bytes) (st : σ) :
    R.found (lines.foldl R.readLine st) = R.found st + fieldLines (fieldOn R.fields) lines := by
  induction lines generalizing st with
  | nil => rfl
  | cons line lines ih =>
    rw [List.foldl_cons, ih, h.step, fieldLines, fieldLines, List.countP_cons]
    omega

theorem Counts.read_eq (h : R.Counts) (content : Bytes) (id : CacheIdentity) :
    R.read content id =
      if CacheIdentity.matches content id = true ∧
        R.fields.length ≤ fieldLines (fieldOn R.fields) (linesOf content)
      then some (R.result ((linesOf content).foldl R.readLine R.start)) else none := by
  unfold read
  dsimp only
  rw [h.foldl, h.start, Nat.zero_add]
  by_cases hmatches : CacheIdentity.matches content id = true
  · by_cases hcount : R.fields.length ≤ fieldLines (fieldOn R.fields) (linesOf content)
    · rw [if_pos hmatches, if_neg (not_lt.mpr hcount), if_pos ⟨hmatches, hcount⟩]
    · rw [if_pos hmatches, if_pos (not_le.mp hcount), if_neg fun h => hcount h.2]
  · rw [if_neg hmatches, if_neg fun h => hmatches h.1]

theorem Counts.takesComplete_iff (h : R.Counts) (content : Bytes) (id : CacheIdentity) :
    TakesComplete R.fields R.read content id ↔
      (CacheIdentity.matches content id = true → RepeatsTell R.fields content) := by
  rw [RepeatsTell, ← covers_of_count_iff h.nodup mem_of_fieldOn]
  unfold TakesComplete
  constructor
  · intro htakes hmatches hcount
    have hread := h.read_eq content id
    rw [if_pos ⟨hmatches, hcount⟩] at hread
    exact htakes _ hread
  · intro htells result hread
    rw [h.read_eq] at hread
    split at hread
    · rename_i haccepted
      exact htells haccepted.1 haccepted.2
    · cases hread

/-- A line changes no value but that of the field it is read as. -/
def Keeps (R : CountingReader σ ρ) (value : ρ → Bytes → Option ℚ) : Prop :=
  ∀ st line key, (∀ field, fieldOn R.fields line = some field → field.key ≠ key) →
    value (R.result (R.readLine st line)) key = value (R.result st) key

/-- A field on no line is left as it was at the start. -/
theorem Keeps.foldl {value : ρ → Bytes → Option ℚ} (h : R.Keeps value) {lines : List Bytes}
    {key : Bytes}
    (hlines : ∀ line ∈ lines, ∀ field, fieldOn R.fields line = some field → field.key ≠ key)
    (st : σ) : value (R.result (lines.foldl R.readLine st)) key = value (R.result st) key := by
  induction lines generalizing st with
  | nil => rfl
  | cons line lines ih =>
    obtain ⟨hline, hrest⟩ := List.forall_mem_cons.mp hlines
    rw [List.foldl_cons, ih hrest]
    exact h st line key hline

theorem Keeps.read {value : ρ → Bytes → Option ℚ} (h : R.Keeps value) {content key : Bytes}
    {id : CacheIdentity} {result : ρ} (hread : R.read content id = some result)
    (hlines : ∀ line ∈ linesOf content, ∀ field, fieldOn R.fields line = some field →
      field.key ≠ key) : value result key = value (R.result R.start) key := by
  unfold CountingReader.read at hread
  dsimp only at hread
  split at hread
  · split at hread
    · cases hread
    · cases hread
      exact h.foldl hlines R.start
  · cases hread

end CountingReader

-- ---------------------------------------------------------------------------
-- The two readers
-- ---------------------------------------------------------------------------

def textReader : CountingReader TuningRead TuningResult where
  fields := [⟨ascii "workers", true⟩, ⟨ascii "threads", true⟩, ⟨ascii "batch_size", true⟩,
    ⟨ascii "throughput_docs_sec", false⟩, ⟨ascii "latency_ms", false⟩, ⟨ascii "memory_mb", false⟩]
  start := {}
  readLine := TuningRead.readLine
  found := TuningRead.found
  result := TuningRead.result

def rerankerReader : CountingReader RerankerTuningRead RerankerTuningResult where
  fields := [⟨ascii "threads", true⟩, ⟨ascii "batch_size", true⟩, ⟨ascii "max_tokens", true⟩,
    ⟨ascii "throughput_docs_sec", false⟩, ⟨ascii "latency_ms", false⟩,
    ⟨ascii "p95_latency_ms", false⟩, ⟨ascii "memory_mb", false⟩]
  start := {}
  readLine := RerankerTuningRead.readLine
  found := RerankerTuningRead.found
  result := RerankerTuningRead.result

theorem readTextCache_eq (content : Bytes) (id : CacheIdentity) :
    readTextCache content id = textReader.read content id := rfl

theorem readRerankerCache_eq (content : Bytes) (id : CacheIdentity) :
    readRerankerCache content id = rerankerReader.read content id := rfl

/-- What the reader of a text model's tuning makes of a line. -/
theorem TuningRead.readLine_cases (st : TuningRead) (line : Bytes) :
    fieldOn textReader.fields line = none ∧ st.readLine line = st ∨
    (∃ workers, fieldOn textReader.fields line = some ⟨ascii "workers", true⟩ ∧
      st.readLine line = ⟨{ st.result with workers }, st.found + 1⟩) ∨
    (∃ threads, fieldOn textReader.fields line = some ⟨ascii "threads", true⟩ ∧
      st.readLine line = ⟨{ st.result with threads }, st.found + 1⟩) ∨
    (∃ batchSize, fieldOn textReader.fields line = some ⟨ascii "batch_size", true⟩ ∧
      st.readLine line = ⟨{ st.result with batchSize }, st.found + 1⟩) ∨
    (∃ throughputDocsSec,
      fieldOn textReader.fields line = some ⟨ascii "throughput_docs_sec", false⟩ ∧
      st.readLine line = ⟨{ st.result with throughputDocsSec }, st.found + 1⟩) ∨
    (∃ latencyMs, fieldOn textReader.fields line = some ⟨ascii "latency_ms", false⟩ ∧
      st.readLine line = ⟨{ st.result with latencyMs }, st.found + 1⟩) ∨
    ∃ memoryMb, fieldOn textReader.fields line = some ⟨ascii "memory_mb", false⟩ ∧
      st.readLine line = ⟨{ st.result with memoryMb }, st.found + 1⟩ := by
  simp only [textReader, readLine, fieldOn, List.find?_cons, TuningField.isOn]
  cases jsonInt line (ascii "workers") with
  | some workers => exact .inr (.inl ⟨workers, rfl, rfl⟩)
  | none => cases jsonInt line (ascii "threads") with
    | some threads => exact .inr (.inr (.inl ⟨threads, rfl, rfl⟩))
    | none => cases jsonInt line (ascii "batch_size") with
      | some batchSize => exact .inr (.inr (.inr (.inl ⟨batchSize, rfl, rfl⟩)))
      | none => cases jsonNumber line (ascii "throughput_docs_sec") with
        | some docs => exact .inr (.inr (.inr (.inr (.inl ⟨docs, rfl, rfl⟩))))
        | none => cases jsonNumber line (ascii "latency_ms") with
          | some latencyMs => exact .inr (.inr (.inr (.inr (.inr (.inl ⟨latencyMs, rfl, rfl⟩)))))
          | none => cases jsonNumber line (ascii "memory_mb") with
            | some memoryMb => exact .inr (.inr (.inr (.inr (.inr (.inr ⟨memoryMb, rfl, rfl⟩)))))
            | none => exact .inl ⟨rfl, rfl⟩

/-- What the reader of a reranker's tuning makes of a line. -/
theorem RerankerTuningRead.readLine_cases (st : RerankerTuningRead) (line : Bytes) :
    fieldOn rerankerReader.fields line = none ∧ st.readLine line = st ∨
    (∃ threads, fieldOn rerankerReader.fields line = some ⟨ascii "threads", true⟩ ∧
      st.readLine line =
        ⟨{ st.result with config := { st.result.config with threads } }, st.found + 1⟩) ∨
    (∃ batchSize, fieldOn rerankerReader.fields line = some ⟨ascii "batch_size", true⟩ ∧
      st.readLine line =
        ⟨{ st.result with config := { st.result.config with batchSize } }, st.found + 1⟩) ∨
    (∃ maxTokens, fieldOn rerankerReader.fields line = some ⟨ascii "max_tokens", true⟩ ∧
      st.readLine line =
        ⟨{ st.result with config := { st.result.config with maxTokens } }, st.found + 1⟩) ∨
    (∃ throughputDocsSec,
      fieldOn rerankerReader.fields line = some ⟨ascii "throughput_docs_sec", false⟩ ∧
      st.readLine line = ⟨{ st.result with throughputDocsSec }, st.found + 1⟩) ∨
    (∃ latencyMs, fieldOn rerankerReader.fields line = some ⟨ascii "latency_ms", false⟩ ∧
      st.readLine line = ⟨{ st.result with latencyMs }, st.found + 1⟩) ∨
    (∃ p95LatencyMs, fieldOn rerankerReader.fields line = some ⟨ascii "p95_latency_ms", false⟩ ∧
      st.readLine line = ⟨{ st.result with p95LatencyMs }, st.found + 1⟩) ∨
    ∃ memoryMb, fieldOn rerankerReader.fields line = some ⟨ascii "memory_mb", false⟩ ∧
      st.readLine line = ⟨{ st.result with memoryMb }, st.found + 1⟩ := by
  simp only [rerankerReader, readLine, fieldOn, List.find?_cons, TuningField.isOn]
  cases jsonInt line (ascii "threads") with
  | some threads => exact .inr (.inl ⟨threads, rfl, rfl⟩)
  | none => cases jsonInt line (ascii "batch_size") with
    | some batchSize => exact .inr (.inr (.inl ⟨batchSize, rfl, rfl⟩))
    | none => cases jsonInt line (ascii "max_tokens") with
      | some maxTokens => exact .inr (.inr (.inr (.inl ⟨maxTokens, rfl, rfl⟩)))
      | none => cases jsonNumber line (ascii "throughput_docs_sec") with
        | some docs => exact .inr (.inr (.inr (.inr (.inl ⟨docs, rfl, rfl⟩))))
        | none => cases jsonNumber line (ascii "latency_ms") with
          | some latencyMs => exact .inr (.inr (.inr (.inr (.inr (.inl ⟨latencyMs, rfl, rfl⟩)))))
          | none => cases jsonNumber line (ascii "p95_latency_ms") with
            | some p95 => exact .inr (.inr (.inr (.inr (.inr (.inr (.inl ⟨p95, rfl, rfl⟩))))))
            | none => cases jsonNumber line (ascii "memory_mb") with
              | some mb => exact .inr (.inr (.inr (.inr (.inr (.inr (.inr ⟨mb, rfl, rfl⟩))))))
              | none => exact .inl ⟨rfl, rfl⟩

theorem textReader_counts : textReader.Counts where
  nodup := by decide
  start := rfl
  step st line := by
    show (st.readLine line).found = st.found + _
    rcases st.readLine_cases line with ⟨hon, hread⟩ | ⟨_, hon, hread⟩ | ⟨_, hon, hread⟩ |
      ⟨_, hon, hread⟩ | ⟨_, hon, hread⟩ | ⟨_, hon, hread⟩ | ⟨_, hon, hread⟩
    all_goals
      rw [hon, hread]
      rfl

theorem rerankerReader_counts : rerankerReader.Counts where
  nodup := by decide
  start := rfl
  step st line := by
    show (st.readLine line).found = st.found + _
    rcases st.readLine_cases line with ⟨hon, hread⟩ | ⟨_, hon, hread⟩ | ⟨_, hon, hread⟩ |
      ⟨_, hon, hread⟩ | ⟨_, hon, hread⟩ | ⟨_, hon, hread⟩ | ⟨_, hon, hread⟩ | ⟨_, hon, hread⟩
    all_goals
      rw [hon, hread]
      rfl

-- ---------------------------------------------------------------------------
-- Missing fields
-- ---------------------------------------------------------------------------

def TuningResult.value (result : TuningResult) (key : Bytes) : Option ℚ :=
  if key = ascii "workers" then some result.workers
  else if key = ascii "threads" then some result.threads
  else if key = ascii "batch_size" then some result.batchSize
  else if key = ascii "throughput_docs_sec" then some result.throughputDocsSec
  else if key = ascii "latency_ms" then some result.latencyMs
  else if key = ascii "memory_mb" then some result.memoryMb
  else none

def RerankerTuningResult.value (result : RerankerTuningResult) (key : Bytes) : Option ℚ :=
  if key = ascii "threads" then some result.config.threads
  else if key = ascii "batch_size" then some result.config.batchSize
  else if key = ascii "max_tokens" then some result.config.maxTokens
  else if key = ascii "throughput_docs_sec" then some result.throughputDocsSec
  else if key = ascii "latency_ms" then some result.latencyMs
  else if key = ascii "p95_latency_ms" then some result.p95LatencyMs
  else if key = ascii "memory_mb" then some result.memoryMb
  else none

theorem textReader_keeps : textReader.Keeps TuningResult.value := by
  intro st line key hkey
  show (st.readLine line).result.value key = st.result.value key
  rcases st.readLine_cases line with ⟨-, hread⟩ | ⟨_, hon, hread⟩ | ⟨_, hon, hread⟩ |
    ⟨_, hon, hread⟩ | ⟨_, hon, hread⟩ | ⟨_, hon, hread⟩ | ⟨_, hon, hread⟩
  · rw [hread]
  all_goals
    have hne := hkey _ hon
    rw [hread]
    simp only [TuningResult.value, if_neg hne.symm]

theorem rerankerReader_keeps : rerankerReader.Keeps RerankerTuningResult.value := by
  intro st line key hkey
  show (st.readLine line).result.value key = st.result.value key
  rcases st.readLine_cases line with ⟨-, hread⟩ | ⟨_, hon, hread⟩ | ⟨_, hon, hread⟩ |
    ⟨_, hon, hread⟩ | ⟨_, hon, hread⟩ | ⟨_, hon, hread⟩ | ⟨_, hon, hread⟩ | ⟨_, hon, hread⟩
  · rw [hread]
  all_goals
    have hne := hkey _ hon
    rw [hread]
    simp only [RerankerTuningResult.value, if_neg hne.symm]

/-- A field that no line is read as is zero in what the readers return. -/
theorem readTextCache_missing {id : CacheIdentity} (hread : readTextCache content id = some result)
    (hfield : field ∈ textReader.fields) (hlines : ∀ line ∈ linesOf content,
      ∀ other, fieldOn textReader.fields line = some other → other.key ≠ field.key) :
    result.value field.key = some 0 := by
  have hstart : ∀ field ∈ textReader.fields,
      (textReader.result textReader.start).value field.key = some 0 := by decide
  rw [readTextCache_eq] at hread
  exact (textReader_keeps.read hread hlines).trans (hstart field hfield)

theorem readRerankerCache_missing {id : CacheIdentity}
    (hread : readRerankerCache content id = some result)
    (hfield : field ∈ rerankerReader.fields) (hlines : ∀ line ∈ linesOf content,
      ∀ other, fieldOn rerankerReader.fields line = some other → other.key ≠ field.key) :
    result.value field.key = some 0 := by
  have hstart : ∀ field ∈ rerankerReader.fields,
      (rerankerReader.result rerankerReader.start).value field.key = some 0 := by decide
  rw [readRerankerCache_eq] at hread
  exact (rerankerReader_keeps.read hread hlines).trans (hstart field hfield)

end LibEmbedding
