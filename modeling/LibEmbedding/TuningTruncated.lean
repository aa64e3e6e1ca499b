import LibEmbedding.AutotuneCacheTruncated
import LibEmbedding.Foundation.Decimals
import LibEmbedding.TuningReaders

/-!
# Stored tunings cut short

The last line that a reader needs is the one of the memory, and the readers do not ask for the
brace behind it. Cut before its number a stored tuning is refused, cut within it it is taken with
the digits that are left.
-/

namespace LibEmbedding

open Foundation

-- ---------------------------------------------------------------------------
-- Lines of one field
-- ---------------------------------------------------------------------------

/-- The line of the memory, the last one. -/
def memoryLine (size : Bytes) : Bytes := numberLine (ascii "memory_mb") size true

theorem memoryLine_append (size : Bytes) : memoryLine size = memoryLine [] ++ size := by
  simp [memoryLine, numberLine]

theorem onlyField_memoryLine (hsize : ∀ c ∈ size, isNumeral c = true) :
    OnlyField (memoryLine size) (ascii "memory_mb") :=
  onlyField_numberLine (by decide) hsize true

theorem isOn_other (h : OnlyField line name) {field : TuningField} (hkey : FieldName field.key)
    (hne : field.key ≠ name) : field.isOn line = false := by
  unfold TuningField.isOn
  rw [h.int hkey hne, h.number hkey hne]
  split <;> rfl

/-- The line of the memory, up to the number. -/
theorem memoryLine_empty : ∀ part, part <+: memoryLine [] →
    jsonNumber part (ascii "memory_mb") = none := by
  have hinits : ∀ part ∈ (memoryLine []).inits, jsonNumber part (ascii "memory_mb") = none := by
    decide +kernel
  exact fun part hpre => hinits part ((List.mem_inits _ _).mpr hpre)

/-- Fields that can be told from each other and from those of an identity. -/
structure TellsFields (fields : List TuningField) : Prop where
  keys : (fields.map TuningField.key).Nodup
  names : ∀ field ∈ fields, FieldName field.key
  others : ∀ field ∈ fields, field.key ∉ [] :: identityNames

namespace TellsFields

variable {fields : List TuningField} {line : Bytes}

theorem fieldOn_other (h : TellsFields fields) (honly : OnlyField line name)
    (hne : ∀ field ∈ fields, field.key ≠ name) : fieldOn fields line = none := by
  unfold fieldOn
  rw [List.find?_eq_none]
  intro field hfield
  rw [isOn_other honly (h.names field hfield) (hne field hfield)]
  exact Bool.false_ne_true

theorem fieldOn_unquoted (h : TellsFields fields) (hline : 34 ∉ line) :
    fieldOn fields line = none :=
  h.fieldOn_other (onlyField_unquoted hline) fun field hfield hnil =>
    h.others field hfield (hnil ▸ List.mem_cons_self)

/-- A line of one field is read as that field or as none. -/
theorem fieldOn_own (h : TellsFields fields) {field : TuningField} (hfield : field ∈ fields)
    (honly : OnlyField line field.key) : (fieldOn fields line).isSome = field.isOn line := by
  rw [Bool.eq_iff_iff, fieldOn, List.find?_isSome]
  constructor
  · rintro ⟨other, hother, hon⟩
    by_cases hkey : other.key = field.key
    · rwa [List.inj_on_of_nodup_map h.keys hother hfield hkey] at hon
    · rw [isOn_other honly (h.names other hother) hkey] at hon
      cases hon
  · exact fun hon => ⟨field, hfield, hon⟩

end TellsFields

-- ---------------------------------------------------------------------------
-- What is written
-- ---------------------------------------------------------------------------

/-- The lines between an identity and the memory: some that are no field, and one for each field but
the memory. -/
structure TuningLines where
  silent : List Bytes
  front : List Bytes

namespace TuningLines

variable (lines : TuningLines) (id : CacheIdentity)

def document (x : ℚ) : Bytes :=
  entry id (lines.silent ++ (lines.front ++ [memoryLine (showDouble x)]))

/-- Everything before the memory. -/
def opening : List Bytes := (ascii "\x7b" :: (id.lines ++ lines.silent)) ++ lines.front

variable {lines id}

/-- What the lines are to a reader. -/
structure For (lines : TuningLines) (fields : List TuningField) : Prop where
  silent : ∀ line ∈ lines.silent, ∃ name, OnlyField line name ∧ ∀ field ∈ fields, field.key ≠ name
  front : lines.front.length + 1 = fields.length
  noNewline : ∀ line ∈ lines.silent ++ lines.front, 10 ∉ line

theorem entry_lines (size : Bytes) :
    ascii "\x7b" :: (id.lines ++ ((lines.silent ++ (lines.front ++ [memoryLine size])) ++
      [ascii "\x7d"])) = lines.opening id ++ memoryLine size :: [ascii "\x7d"] := by
  simp [opening]

variable {fields : List TuningField}

theorem For.lines_noNewline (h : lines.For fields) (hid : id.Legible) (x : ℚ) :
    ∀ line ∈ lines.opening id ++ memoryLine (showDouble x) :: [ascii "\x7d"], 10 ∉ line := by
  have hfields : ∀ line ∈ lines.silent ++ (lines.front ++ [memoryLine (showDouble x)]),
      10 ∉ line := by
    intro line hline
    rw [← List.append_assoc, List.mem_append, List.mem_singleton] at hline
    rcases hline with hfirst | rfl
    · exact h.noNewline line hfirst
    · exact numberLine_noNewline (by decide) (numeral_showDouble x) true
  have hall := entryLines_noNewline hid hfields
  rwa [entry_lines] at hall

theorem document_eq (x : ℚ) : lines.document id x =
    LibEmbedding.document (lines.opening id ++ memoryLine (showDouble x) :: [ascii "\x7d"]) := by
  rw [TuningLines.document, entry, entry_lines]

theorem For.linesOf_document (h : lines.For fields) (hid : id.Legible) (x : ℚ) :
    linesOf (lines.document id x) =
      lines.opening id ++ memoryLine (showDouble x) :: [ascii "\x7d"] := by
  rw [document_eq]
  exact LibEmbedding.linesOf_document (h.lines_noNewline hid x)

/-- Whatever is left of a line before the fields is none of them. -/
theorem For.quiet (h : lines.For fields) (hfields : TellsFields fields) (hid : id.Legible) :
    ∀ line ∈ ascii "\x7b" :: (id.lines ++ lines.silent), ∀ part, part <+: line →
      fieldOn fields part = none := by
  intro line hline part hpart
  rcases List.mem_cons.mp hline with rfl | hrest
  · exact hfields.fieldOn_unquoted fun hquote => absurd (hpart.subset hquote) (by decide)
  · rcases List.mem_append.mp hrest with hown | hsilent
    · obtain ⟨name, hname, honly⟩ := hid.onlyField line hown
      refine hfields.fieldOn_other (honly.of_prefix hpart) fun field hfield heq => ?_
      exact hfields.others field hfield (heq ▸ List.mem_cons_of_mem _ hname)
    · obtain ⟨name, honly, hne⟩ := h.silent line hsilent
      exact hfields.fieldOn_other (honly.of_prefix hpart) hne

theorem For.opening_count (h : lines.For fields) (hfields : TellsFields fields) (hid : id.Legible) :
    fieldLines (fieldOn fields) (lines.opening id) = fieldLines (fieldOn fields) lines.front := by
  rw [opening, fieldLines_append, fieldLines_none fun line hline =>
    h.quiet hfields hid line hline line List.prefix_rfl, Nat.zero_add]

/-- Cut short of the number of the memory, an entry has too few fields; behind it it has what is
left of that number. -/
theorem For.prefix_cases (h : lines.For fields) (hfields : TellsFields fields) (hid : id.Legible)
    {x : ℚ} (hmemory : ⟨ascii "memory_mb", false⟩ ∈ fields) (hpre : p <+: lines.document id x) :
    fieldLines (fieldOn fields) (linesOf p) < fields.length ∨
      ∃ size rest, size <+: showDouble x ∧ linesOf p = lines.opening id ++ memoryLine size :: rest ∧
        ∀ line ∈ rest, 34 ∉ line := by
  have hquiet := h.quiet hfields hid
  have hopening := h.opening_count hfields hid
  have hfront := fieldLines_le (fieldOn fields) lines.front
  have hcount := h.front
  rw [document_eq] at hpre
  rcases (cut_of_initial (h.lines_noNewline hid x) hpre).append with hfirst | ⟨cut, hrest, hlines⟩
  · left
    rcases hfirst.append with hsilent | ⟨cut, hcut, hlines⟩
    · have hnone : fieldLines (fieldOn fields) (linesOf p) = 0 := by
        refine fieldLines_none fun part hpart => ?_
        obtain ⟨line, hline, hpart⟩ := hsilent.mem part hpart
        exact hquiet line hline part hpart
      omega
    · have hfew := fieldLines_le (fieldOn fields) cut
      have hlength := hcut.length_le
      rw [hlines, fieldLines_append, fieldLines_none fun line hline =>
        hquiet line hline line List.prefix_rfl]
      omega
  · cases hrest with
    | none =>
      left
      rw [hlines, List.append_nil, hopening]
      omega
    | @within part _ _ hpart =>
      rw [memoryLine_append] at hpart
      rcases prefix_split hpart with hkey | ⟨size, rfl, hsize⟩
      · left
        have honly : OnlyField part (ascii "memory_mb") :=
          OnlyField.of_prefix (onlyField_memoryLine fun _ h => absurd h List.not_mem_nil) hkey
        have hnone : fieldOn fields part = none := by
          rw [← Option.isSome_eq_false_iff.trans Option.isNone_iff_eq_none,
            hfields.fieldOn_own hmemory honly, TuningField.isOn, if_neg Bool.false_ne_true,
            memoryLine_empty part hkey]
          rfl
        have hlast : fieldLines (fieldOn fields) [part] = 0 :=
          fieldLines_none fun line hline => List.mem_singleton.mp hline ▸ hnone
        rw [hlines, fieldLines_append, hopening, hlast]
        omega
      · rw [← memoryLine_append] at hlines
        exact .inr ⟨size, [], hsize, hlines, fun _ h => absurd h List.not_mem_nil⟩
    | @line _ cut' _ hclose =>
      refine .inr ⟨showDouble x, cut', List.prefix_rfl, hlines, fun line hline => ?_⟩
      obtain ⟨close, hin, hpart⟩ := hclose.mem line hline
      rw [List.mem_singleton.mp hin] at hpart
      exact fun hquote => absurd (hpart.subset hquote) (by decide)

/-- Whatever starts the text of the memory can be all that is left of it. -/
theorem For.prefix_within (h : lines.For fields) (hid : id.Legible) {x : ℚ}
    (hsize : size <+: showDouble x) :
    ∃ p, p <+: lines.document id x ∧ linesOf p = lines.opening id ++ [memoryLine size] := by
  have hnewline := h.lines_noNewline hid x
  have hnumeral : ∀ c ∈ size, isNumeral c = true :=
    fun c hc => numeral_showDouble x c (hsize.subset hc)
  refine ⟨LibEmbedding.document (lines.opening id) ++ memoryLine size, ?_, ?_⟩
  · obtain ⟨t, ht⟩ := hsize
    refine ⟨t ++ 10 :: LibEmbedding.document [ascii "\x7d"], ?_⟩
    rw [document_eq, ← ht, memoryLine_append (size ++ t), memoryLine_append size]
    simp [LibEmbedding.document]
  · refine linesOf_partial (fun line hline => hnewline line (List.mem_append_left _ hline)) ?_ ?_
    · exact numberLine_noNewline (by decide) hnumeral true
    · exact List.cons_ne_nil _ _

end TuningLines

-- ---------------------------------------------------------------------------
-- What is read of it
-- ---------------------------------------------------------------------------

/-- Whatever is left of an entry, nothing is read from it but what is read from the whole. -/
def NeverMisreads (read : Bytes → CacheIdentity → Option ρ) (content : Bytes)
    (id : CacheIdentity) : Prop :=
  ∀ p, p <+: content → p ≠ content → read p id = none ∨ read p id = read content id

/-- A number that is printed as one digit, behind a sign or not. -/
def OneDigit (x : ℚ) : Prop := ∃ k : Int, k.natAbs ≤ 9 ∧ printed x = k

namespace CountingReader

variable {σ ρ : Type} {R : CountingReader σ ρ} {setMemory : ρ → ℚ → ρ} {lines : TuningLines}
  {id : CacheIdentity}

/-- A reader that sets the memory to what it reads on the line of the memory. -/
structure EndsWithMemory (R : CountingReader σ ρ) (setMemory : ρ → ℚ → ρ) : Prop where
  counts : R.Counts
  fields : TellsFields R.fields
  memory : ⟨ascii "memory_mb", false⟩ ∈ R.fields
  skips : ∀ st line, fieldOn R.fields line = none → R.readLine st line = st
  sets : ∀ st line v, OnlyField line (ascii "memory_mb") →
    jsonNumber line (ascii "memory_mb") = some v →
    R.result (R.readLine st line) = setMemory (R.result st) v
  injective : ∀ result v w, setMemory result v = setMemory result w → v = w

/-- Every line before the memory is read as its field. -/
def FrontRead (R : CountingReader σ ρ) (lines : TuningLines) : Prop :=
  ∀ line ∈ lines.front, (fieldOn R.fields line).isSome = true

/-- What has been read before the memory. -/
def front (R : CountingReader σ ρ) (lines : TuningLines) (id : CacheIdentity) : ρ :=
  R.result ((lines.opening id).foldl R.readLine R.start)

theorem EndsWithMemory.count (hR : R.EndsWithMemory setMemory) (hlines : lines.For R.fields)
    (hid : id.Legible) {p size : Bytes} {rest : List Bytes}
    (hp : linesOf p = lines.opening id ++ memoryLine size :: rest)
    (hsize : ∀ c ∈ size, isNumeral c = true) (hrest : ∀ line ∈ rest, 34 ∉ line) :
    R.fields.length ≤ fieldLines (fieldOn R.fields) (linesOf p) ↔
      R.FrontRead lines ∧ (stod size).isSome = true := by
  have honly := onlyField_memoryLine hsize
  have hmemory : (fieldOn R.fields (memoryLine size)).isSome = (stod size).isSome := by
    rw [hR.fields.fieldOn_own hR.memory honly, TuningField.isOn, if_neg Bool.false_ne_true,
      memoryLine, jsonNumber_numberLine (by decide) (by decide) hsize, if_pos rfl]
  have hcount : fieldLines (fieldOn R.fields) (linesOf p) =
      fieldLines (fieldOn R.fields) lines.front + if (stod size).isSome then 1 else 0 := by
    have htail : fieldLines (fieldOn R.fields) rest = 0 :=
      fieldLines_none fun line hline => hR.fields.fieldOn_unquoted (hrest line hline)
    have hlast : fieldLines (fieldOn R.fields) (memoryLine size :: rest) =
        fieldLines (fieldOn R.fields) rest + if (stod size).isSome then 1 else 0 := by
      rw [fieldLines, List.countP_cons, hmemory]
      rfl
    rw [hp, fieldLines_append, hlines.opening_count hR.fields hid, hlast, htail, Nat.zero_add]
  have hfront := fieldLines_le (fieldOn R.fields) lines.front
  have hlength := hlines.front
  rw [hcount, FrontRead, ← fieldLines_eq_length]
  split
  · rename_i hsome
    rw [and_iff_left hsome]
    omega
  · rename_i hnone
    rw [iff_false_right fun h => hnone h.2]
    omega

theorem EndsWithMemory.read_of_lines (hR : R.EndsWithMemory setMemory)
    (hlines : lines.For R.fields) (hid : id.Legible) {p size : Bytes} {rest : List Bytes}
    (hp : linesOf p = lines.opening id ++ memoryLine size :: rest)
    (hsize : ∀ c ∈ size, isNumeral c = true) (hrest : ∀ line ∈ rest, 34 ∉ line) :
    (R.FrontRead lines → R.read p id = (stod size).map (setMemory (R.front lines id))) ∧
      (¬R.FrontRead lines → R.read p id = none) := by
  have hmatches : CacheIdentity.matches p id = true := by
    rw [CacheIdentity.matches_lines hid (hp.trans (by simp [TuningLines.opening]; rfl))]
    exact decide_eq_true rfl
  have hcount := hR.count hlines hid hp hsize hrest
  rw [hR.counts.read_eq]
  constructor
  · intro hfront
    cases hread : stod size with
    | none =>
      rw [hread] at hcount
      rw [if_neg fun h => Bool.false_ne_true (hcount.mp h.2).2]
      rfl
    | some v =>
      rw [hread] at hcount
      have hnumber : jsonNumber (memoryLine size) (ascii "memory_mb") = some v := by
        rw [memoryLine, jsonNumber_numberLine (by decide) (by decide) hsize, if_pos rfl, hread]
      have hskip (st : σ) : rest.foldl R.readLine st = st :=
        foldl_skipped (fun line hline st =>
          hR.skips st line (hR.fields.fieldOn_unquoted (hrest line hline))) st
      rw [if_pos ⟨hmatches, hcount.mpr ⟨hfront, rfl⟩⟩, hp, List.foldl_append, List.foldl_cons,
        hskip, hR.sets _ _ v (onlyField_memoryLine hsize) hnumber]
      rfl
  · exact fun hnot => if_neg fun h => hnot (hcount.mp h.2).1

theorem EndsWithMemory.neverMisreads_iff (hR : R.EndsWithMemory setMemory) (id : CacheIdentity)
    (hlines : lines.For R.fields) {x : ℚ} (hx : FiniteDouble x) :
    NeverMisreads R.read (lines.document id x) id ↔
      (id.Legible → R.FrontRead lines → OneDigit x) := by
  have hnumeral : ∀ size, size <+: showDouble x → ∀ c ∈ size, isNumeral c = true :=
    fun size hsize c hc => numeral_showDouble x c (hsize.subset hc)
  have hwhole := fun hid : id.Legible => hR.read_of_lines hlines hid
    (hlines.linesOf_document hid x) (numeral_showDouble x) (by decide)
  constructor
  · intro hnever hid hfront
    refine (stod_prefix_iff hx).mp fun size hsize => ?_
    obtain ⟨p, hpre, hp⟩ := hlines.prefix_within hid hsize
    have hread := (hR.read_of_lines hlines hid hp (hnumeral size hsize)
      fun _ h => absurd h List.not_mem_nil).1 hfront
    have hnever' : R.read p id = none ∨ R.read p id = R.read (lines.document id x) id := by
      by_cases hsame : p = lines.document id x
      · exact .inr (by rw [hsame])
      · exact hnever p hpre hsame
    rcases hnever' with hnone | hequal
    · exact .inl (Option.map_eq_none_iff.mp (hread.symm.trans hnone))
    · rw [hread, (hwhole hid).1 hfront] at hequal
      exact .inr (Option.map_injective (fun v w => hR.injective _ v w) hequal)
  · intro hdigit p hpre _
    by_cases hid : id.Legible
    · rcases hlines.prefix_cases hR.fields hid hR.memory hpre with
        hfew | ⟨size, rest, hsize, hp, hrest⟩
      · left
        rw [hR.counts.read_eq, if_neg fun h => absurd h.2 (not_le.mpr hfew)]
      · have hread := hR.read_of_lines hlines hid hp (hnumeral size hsize) hrest
        by_cases hfront : R.FrontRead lines
        · rw [hread.1 hfront, (hwhole hid).1 hfront]
          rcases (stod_prefix_iff hx).mpr (hdigit hid hfront) size hsize with hnone | hall
          · rw [hnone]
            exact .inl rfl
          · exact .inr (by rw [hall])
        · exact .inl (hread.2 hfront)
    · left
      rw [hR.counts.read_eq, if_neg fun h => hid (CacheIdentity.legible_of_matches h.1)]

end CountingReader

-- ---------------------------------------------------------------------------
-- The two readers
-- ---------------------------------------------------------------------------

namespace TellsFields

variable {fields : List TuningField}

theorem int_read (h : TellsFields fields) (hfield : ⟨key, true⟩ ∈ fields) {n : Int}
    (hn : FitsInt n) (last : Bool) :
    (fieldOn fields (numberLine key (showInt n) last)).isSome = true := by
  have hkey : FieldName key := h.names _ hfield
  rw [h.fieldOn_own hfield (onlyField_numberLine hkey (numeral_showInt n) last), TuningField.isOn,
    if_pos rfl, jsonInt_numberLine hkey n hn.1 hn.2]
  rfl

theorem double_read (h : TellsFields fields) (hfield : ⟨key, false⟩ ∈ fields) {x : ℚ}
    (hx : FiniteDouble x) (last : Bool) :
    (fieldOn fields (numberLine key (showDouble x) last)).isSome = inRange (printed x) := by
  have hkey : FieldName key := h.names _ hfield
  rw [h.fieldOn_own hfield (onlyField_numberLine hkey (numeral_showDouble x) last),
    TuningField.isOn, if_neg Bool.false_ne_true,
    jsonNumber_numberLine hkey hkey (numeral_showDouble x), if_pos rfl, stod_showDouble hx, checked]
  split
  · rename_i hrange
    exact hrange.symm
  · rename_i hrange
    exact (Bool.eq_false_iff.mpr hrange).symm

end TellsFields

/-- The numbers of a result are integers and finite doubles. -/
structure TuningResult.Typed (result : TuningResult) : Prop where
  workers : FitsInt result.workers
  threads : FitsInt result.threads
  batchSize : FitsInt result.batchSize
  throughputDocsSec : FiniteDouble result.throughputDocsSec
  latencyMs : FiniteDouble result.latencyMs
  memoryMb : FiniteDouble result.memoryMb

structure RerankerTuningResult.Typed (result : RerankerTuningResult) : Prop where
  threads : FitsInt result.config.threads
  batchSize : FitsInt result.config.batchSize
  maxTokens : FitsInt result.config.maxTokens
  throughputDocsSec : FiniteDouble result.throughputDocsSec
  latencyMs : FiniteDouble result.latencyMs
  p95LatencyMs : FiniteDouble result.p95LatencyMs
  memoryMb : FiniteDouble result.memoryMb

def TuningResult.tuningLines (result : TuningResult) : TuningLines where
  silent := []
  front := [
    numberLine (ascii "workers") (showInt result.workers) false,
    numberLine (ascii "threads") (showInt result.threads) false,
    numberLine (ascii "batch_size") (showInt result.batchSize) false,
    numberLine (ascii "throughput_docs_sec") (showDouble result.throughputDocsSec) false,
    numberLine (ascii "latency_ms") (showDouble result.latencyMs) false]

def RerankerTuningResult.tuningLines (cores : Int) (result : RerankerTuningResult) :
    TuningLines where
  silent := [numberLine (ascii "cores") (showInt cores) false]
  front := [
    numberLine (ascii "threads") (showInt result.config.threads) false,
    numberLine (ascii "batch_size") (showInt result.config.batchSize) false,
    numberLine (ascii "max_tokens") (showInt result.config.maxTokens) false,
    numberLine (ascii "throughput_docs_sec") (showDouble result.throughputDocsSec) false,
    numberLine (ascii "latency_ms") (showDouble result.latencyMs) false,
    numberLine (ascii "p95_latency_ms") (showDouble result.p95LatencyMs) false]

theorem textCacheDocument_eq (id : CacheIdentity) (result : TuningResult) :
    textCacheDocument id result = result.tuningLines.document id result.memoryMb := rfl

theorem rerankerCacheDocument_eq (cores : Int) (id : CacheIdentity)
    (result : RerankerTuningResult) : rerankerCacheDocument cores id result =
      (result.tuningLines cores).document id result.memoryMb := rfl

theorem textReader_tells : TellsFields textReader.fields where
  keys := by decide
  names := by decide
  others := by decide

theorem rerankerReader_tells : TellsFields rerankerReader.fields where
  keys := by decide
  names := by decide
  others := by decide

theorem textReader_endsWithMemory :
    textReader.EndsWithMemory fun result memoryMb => { result with memoryMb } where
  counts := textReader_counts
  fields := textReader_tells
  memory := by decide
  skips st line hnone := by
    rcases st.readLine_cases line with ⟨-, hread⟩ | ⟨_, hon, -⟩ | ⟨_, hon, -⟩ | ⟨_, hon, -⟩ |
      ⟨_, hon, -⟩ | ⟨_, hon, -⟩ | ⟨_, hon, -⟩
    · exact hread
    all_goals
      rw [hnone] at hon
      cases hon
  sets st line v honly hv := by
    show (TuningRead.readLine st line).result = _
    rw [TuningRead.readLine, honly.int (by decide) (by decide), honly.int (by decide) (by decide),
      honly.int (by decide) (by decide), honly.number (by decide) (by decide),
      honly.number (by decide) (by decide), hv]
    rfl
  injective result v w h := congrArg TuningResult.memoryMb h

theorem rerankerReader_endsWithMemory :
    rerankerReader.EndsWithMemory fun result memoryMb => { result with memoryMb } where
  counts := rerankerReader_counts
  fields := rerankerReader_tells
  memory := by decide
  skips st line hnone := by
    rcases st.readLine_cases line with ⟨-, hread⟩ | ⟨_, hon, -⟩ | ⟨_, hon, -⟩ | ⟨_, hon, -⟩ |
      ⟨_, hon, -⟩ | ⟨_, hon, -⟩ | ⟨_, hon, -⟩ | ⟨_, hon, -⟩
    · exact hread
    all_goals
      rw [hnone] at hon
      cases hon
  sets st line v honly hv := by
    show (RerankerTuningRead.readLine st line).result = _
    rw [RerankerTuningRead.readLine, honly.int (by decide) (by decide),
      honly.int (by decide) (by decide), honly.int (by decide) (by decide),
      honly.number (by decide) (by decide), honly.number (by decide) (by decide),
      honly.number (by decide) (by decide), hv]
    rfl
  injective result v w h := congrArg RerankerTuningResult.memoryMb h

theorem TuningResult.lines_for (result : TuningResult) :
    result.tuningLines.For textReader.fields where
  silent := fun _ hline => absurd hline List.not_mem_nil
  front := rfl
  noNewline line hline := by
    have hsplit : result.lines =
        result.tuningLines.front ++ [memoryLine (showDouble result.memoryMb)] := rfl
    refine result.lines_noNewline line ?_
    rw [hsplit]
    exact List.mem_append_left _ hline

theorem RerankerTuningResult.lines_for (cores : Int) (result : RerankerTuningResult) :
    (result.tuningLines cores).For rerankerReader.fields where
  silent line hline := by
    obtain rfl := List.mem_singleton.mp hline
    exact ⟨ascii "cores", onlyField_numberLine (by decide) (numeral_showInt cores) false, by decide⟩
  front := rfl
  noNewline line hline := by
    simp only [tuningLines, List.singleton_append, List.mem_cons, List.not_mem_nil, or_false]
      at hline
    rcases hline with rfl | rfl | rfl | rfl | rfl | rfl | rfl
    · exact numberLine_noNewline (by decide) (numeral_showInt _) _
    · exact numberLine_noNewline (by decide) (numeral_showInt _) _
    · exact numberLine_noNewline (by decide) (numeral_showInt _) _
    · exact numberLine_noNewline (by decide) (numeral_showInt _) _
    · exact numberLine_noNewline (by decide) (numeral_showDouble _) _
    · exact numberLine_noNewline (by decide) (numeral_showDouble _) _
    · exact numberLine_noNewline (by decide) (numeral_showDouble _) _

theorem TuningResult.Typed.frontRead_iff {result : TuningResult} (h : result.Typed) :
    textReader.FrontRead result.tuningLines ↔
      inRange (printed result.throughputDocsSec) = true ∧
        inRange (printed result.latencyMs) = true := by
  have htells := textReader_tells
  unfold CountingReader.FrontRead
  simp only [tuningLines, List.forall_mem_cons]
  rw [htells.int_read (by decide) h.workers, htells.int_read (by decide) h.threads,
    htells.int_read (by decide) h.batchSize, htells.double_read (by decide) h.throughputDocsSec,
    htells.double_read (by decide) h.latencyMs]
  simp

theorem RerankerTuningResult.Typed.frontRead_iff {result : RerankerTuningResult} (h : result.Typed)
    (cores : Int) :
    rerankerReader.FrontRead (result.tuningLines cores) ↔
      inRange (printed result.throughputDocsSec) = true ∧
        inRange (printed result.latencyMs) = true ∧
          inRange (printed result.p95LatencyMs) = true := by
  have htells := rerankerReader_tells
  unfold CountingReader.FrontRead
  simp only [tuningLines, List.forall_mem_cons]
  rw [htells.int_read (by decide) h.threads, htells.int_read (by decide) h.batchSize,
    htells.int_read (by decide) h.maxTokens, htells.double_read (by decide) h.throughputDocsSec,
    htells.double_read (by decide) h.latencyMs, htells.double_read (by decide) h.p95LatencyMs]
  simp

-- ---------------------------------------------------------------------------
-- Complete entries
-- ---------------------------------------------------------------------------

/-- The readers take complete entries only exactly where no repeated line makes up for a missing
field, and no part of an entry for another exactly where the memory is printed as one digit or the
entry is refused anyway. -/
theorem tuningReaders_iff (content : Bytes) (id : CacheIdentity) (cores : Int)
    (tuning : { result : TuningResult // result.Typed })
    (rerankerTuning : { result : RerankerTuningResult // result.Typed }) :
    (TakesComplete textReader.fields readTextCache content id ↔
      (CacheIdentity.matches content id = true → RepeatsTell textReader.fields content)) ∧
    (TakesComplete rerankerReader.fields readRerankerCache content id ↔
      (CacheIdentity.matches content id = true → RepeatsTell rerankerReader.fields content)) ∧
    (NeverMisreads readTextCache (textCacheDocument id tuning.val) id ↔
      (id.Legible → inRange (printed tuning.val.throughputDocsSec) = true →
        inRange (printed tuning.val.latencyMs) = true → OneDigit tuning.val.memoryMb)) ∧
    (NeverMisreads readRerankerCache (rerankerCacheDocument cores id rerankerTuning.val) id ↔
      (id.Legible → inRange (printed rerankerTuning.val.throughputDocsSec) = true →
        inRange (printed rerankerTuning.val.latencyMs) = true →
        inRange (printed rerankerTuning.val.p95LatencyMs) = true →
        OneDigit rerankerTuning.val.memoryMb)) := by
  obtain ⟨result, h⟩ := tuning
  obtain ⟨rerankerResult, hreranker⟩ := rerankerTuning
  have hiff := textReader_endsWithMemory.neverMisreads_iff id result.lines_for h.memoryMb
  have hrerankerIff := rerankerReader_endsWithMemory.neverMisreads_iff id
    (rerankerResult.lines_for cores) hreranker.memoryMb
  rw [h.frontRead_iff, and_imp] at hiff
  rw [hreranker.frontRead_iff, and_imp, and_imp] at hrerankerIff
  exact ⟨textReader_counts.takesComplete_iff content id,
    rerankerReader_counts.takesComplete_iff content id, hiff, hrerankerIff⟩

def quickIdentity : CacheIdentity := textCacheIdentity (ascii "m") [] [] .quick

/-- Six lines for the workers, and no other field. -/
def workersOnly : Bytes :=
  entry quickIdentity (List.replicate 6 (numberLine (ascii "workers") (ascii "4") false))

def fastTuning : TuningResult := ⟨4, 1, 32, 100, 10, 400⟩

/-- Six lines for the workers are taken for a tuning of no threads, and of 400 megabytes an entry
can be left with 4. -/
theorem tunings_misread :
    ¬TakesComplete textReader.fields readTextCache workersOnly quickIdentity ∧
      ¬NeverMisreads readTextCache (textCacheDocument quickIdentity fastTuning) quickIdentity := by
  constructor
  · intro htakes
    have htaken : readTextCache workersOnly quickIdentity = some ⟨4, 0, 0, 0, 0, 0⟩ := by
      decide +kernel
    have hnone : ∀ line ∈ linesOf workersOnly,
        fieldOn textReader.fields line ≠ some ⟨ascii "threads", true⟩ := by decide +kernel
    obtain ⟨line, hline, hon⟩ := htakes _ htaken ⟨ascii "threads", true⟩ (by decide)
    exact hnone line hline hon
  · intro hnever
    have hcut := hnever ((textCacheDocument quickIdentity fastTuning).take 201)
    revert hcut
    decide +kernel

end LibEmbedding
