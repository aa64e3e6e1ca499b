import LibEmbedding.QuantizationReason
import Mathlib.Data.List.ReduceOption

/-!
# A stored decision read back

What the lines of a stored decision come to, line by line: the loader finds the mode that was
stored, or it finds nothing.
-/

namespace LibEmbedding

open Foundation

-- ---------------------------------------------------------------------------
-- Lines that say nothing of a decision
-- ---------------------------------------------------------------------------

theorem OnlyField.string (h : OnlyField line name) (hkey : FieldName key) (hne : key ≠ name) :
    quantAutoJsonString line key = none := by
  rw [quantAutoJsonString, h key hkey hne]
  rfl

/-- The names of the fields of a row. -/
def rowFields : List String := ["quantization", "docs_per_sec", "latency_ms", "file_mb"]

theorem fieldName_rowKey (i : Nat) (hfield : field ∈ rowFields) : FieldName (rowKey i field) := by
  have hdigits : ∀ c ∈ showInt i, c ≠ 34 ∧ c ≠ 10 ∧ c ≠ 58 := fun c hc =>
    ⟨(numeral_facts (numeral_showInt _ c hc)).1, (numeral_facts (numeral_showInt _ c hc)).2.1,
      (numeral_facts (numeral_showInt _ c hc)).2.2.1⟩
  have hescape : 92 ∉ showInt i := by
    intro hc
    have hnumeral := numeral_showInt _ 92 hc
    revert hnumeral
    decide
  have hfixed : FieldName (ascii field) := by
    simp only [rowFields, List.mem_cons, List.not_mem_nil, or_false] at hfield
    rcases hfield with rfl | rfl | rfl | rfl <;> decide
  have happend (c : UInt8) (hq : c ∉ ascii "q") (hunderscore : c ∉ ascii "_")
      (hi : c ∉ showInt i) (hf : c ∉ ascii field) : c ∉ rowKey i field := by
    simp only [rowKey, List.mem_append, not_or]
    exact ⟨⟨⟨hq, hi⟩, hunderscore⟩, hf⟩
  refine ⟨⟨?_, ?_⟩, ?_, ?_⟩
  · exact happend 34 (by decide) (by decide) (fun h => (hdigits _ h).1 rfl) hfixed.plain.1
  · exact happend 10 (by decide) (by decide) (fun h => (hdigits _ h).2.1 rfl) hfixed.plain.2
  · exact happend 58 (by decide) (by decide) (fun h => (hdigits _ h).2.2 rfl) hfixed.noColon
  · exact happend 92 (by decide) (by decide) hescape hfixed.noEscape

/-- The names of rows are told apart. -/
theorem rowKey_injective : ∀ i < quantMaxVariants, ∀ j < quantMaxVariants, ∀ field ∈ rowFields,
    ∀ other ∈ rowFields, rowKey i field = rowKey j other → i = j ∧ field = other := by
  decide +kernel

/-- No name of a row is a name of the decision. -/
theorem rowKey_ne : ∀ i < quantMaxVariants, ∀ field ∈ rowFields,
    ∀ name ∈ ["quantization", "num_measured", "reason"], ascii name ≠ rowKey i field := by
  decide +kernel

namespace QuantizationLoad

theorem read_other (h : OnlyField line name) (hname : ∀ field ∈ rowFields, rowKey i field ≠ name)
    (row : QuantizationRow) : QuantizationRow.read line i row = row := by
  have hnone (field : String) (hfield : field ∈ rowFields) :
      jsonNumber line (rowKey i field) = none :=
    h.number (fieldName_rowKey i hfield) (hname field hfield)
  rw [QuantizationRow.read, hnone "docs_per_sec" (by decide), hnone "quantization" (by decide),
    hnone "latency_ms" (by decide), hnone "file_mb" (by decide)]
  rfl

theorem mapIdx_other (h : OnlyField line name)
    (hname : ∀ i, ∀ field ∈ rowFields, rowKey i field ≠ name) (rows : List QuantizationRow) :
    rows.mapIdx (QuantizationRow.read line) = rows := by
  have hid : QuantizationRow.read line = fun _ row => row :=
    funext fun i => funext fun row => read_other h (hname i) row
  rw [hid]
  exact List.ext_getElem? fun i => by simp

theorem rowKey_head (hname : name.head? ≠ some 113) (i : Nat) (field : String) :
    rowKey i field ≠ name := by
  rintro rfl
  exact hname rfl

/-- A line of the identity, and every other line that no accessor looks for. -/
theorem readLine_other (h : OnlyField line name) (hhead : name.head? ≠ some 113)
    (hmeasured : ascii "num_measured" ≠ name) (hreason : ascii "reason" ≠ name)
    (st : QuantizationLoad) : st.readLine line = st := by
  have hquantization : ascii "quantization" ≠ name := by
    rintro rfl
    exact hhead rfl
  rw [readLine, h.int (by decide) hquantization, h.int (by decide) hmeasured,
    h.string (by decide) hreason]
  dsimp only
  rw [mapIdx_other h fun i field _ => rowKey_head hhead i field]

theorem readLine_quantization (st : QuantizationLoad) (q : Int) (hmin : intMin ≤ q)
    (hmax : q ≤ intMax) :
    st.readLine (numberLine (ascii "quantization") (showInt q) false) = { st with best := q } := by
  rw [readLine, jsonInt_numberLine (by decide) q hmin hmax]

theorem readLine_numMeasured (st : QuantizationLoad) (n : Int) (hmin : intMin ≤ n)
    (hmax : n ≤ intMax) :
    st.readLine (numberLine (ascii "num_measured") (showInt n) false) =
      { st with numMeasured := n } := by
  have honly : OnlyField (numberLine (ascii "num_measured") (showInt n) false)
      (ascii "num_measured") := onlyField_numberLine (by decide) (numeral_showInt n) _
  rw [readLine, honly.int (by decide) (by decide), jsonInt_numberLine (by decide) n hmin hmax]

theorem readLine_reason (st : QuantizationLoad) (reason : Bytes) :
    st.readLine (stringLine (ascii "reason") (quantAutoJsonEscape reason)) = { st with reason } := by
  have hescaped := escaped_escape reason
  have honly : OnlyField (stringLine (ascii "reason") (quantAutoJsonEscape reason))
      (ascii "reason") := hescaped.onlyField (by decide)
  rw [readLine, honly.int (by decide) (by decide), honly.int (by decide) (by decide),
    hescaped.jsonString_line, unescape_escape]

-- ---------------------------------------------------------------------------
-- Rows
-- ---------------------------------------------------------------------------

/-- What the reader makes of the fields of a row. -/
def readBack (row : QuantizationMeasurement) : QuantizationRow where
  quantization := (stod (showInt row.quantization)).map truncated
  docsPerSec := stod (showDouble row.docsPerSec)
  latencyMs := stod (showDouble row.latencyMs)
  fileMb := stod (showDouble row.fileMb)

theorem jsonNumber_row (hi : i < quantMaxVariants) (hj : j < quantMaxVariants)
    (hfield : field ∈ rowFields) (hother : other ∈ rowFields)
    (hvalue : ∀ c ∈ value, isNumeral c = true) (last : Bool) :
    jsonNumber (numberLine (rowKey i field) value last) (rowKey j other) =
      if j = i ∧ other = field then stod value else none := by
  rw [jsonNumber_numberLine (fieldName_rowKey j hother) (fieldName_rowKey i hfield) hvalue]
  refine if_congr ⟨rowKey_injective j hj i hi other hother field hfield, ?_⟩ rfl rfl
  rintro ⟨rfl, rfl⟩
  rfl

/-- What one found field changes of a row. -/
def put (row : QuantizationRow) (field : String) (v : Option ℚ) : QuantizationRow where
  docsPerSec := if field = "docs_per_sec" then v.or row.docsPerSec else row.docsPerSec
  quantization :=
    if field = "quantization" then (v.map truncated).or row.quantization else row.quantization
  latencyMs := if field = "latency_ms" then v.or row.latencyMs else row.latencyMs
  fileMb := if field = "file_mb" then v.or row.fileMb else row.fileMb

theorem read_row (hi : i < quantMaxVariants) (hj : j < quantMaxVariants)
    (hfield : field ∈ rowFields) (hvalue : ∀ c ∈ value, isNumeral c = true) (last : Bool)
    (row : QuantizationRow) :
    QuantizationRow.read (numberLine (rowKey i field) value last) j row =
      if j = i then put row field (stod value) else row := by
  have hnumber (other : String) (hother : other ∈ rowFields) :
      jsonNumber (numberLine (rowKey i field) value last) (rowKey j other) =
        if j = i ∧ other = field then stod value else none :=
    jsonNumber_row hi hj hfield hother hvalue last
  rw [QuantizationRow.read, hnumber "docs_per_sec" (by decide), hnumber "quantization" (by decide),
    hnumber "latency_ms" (by decide), hnumber "file_mb" (by decide)]
  by_cases hown : j = i
  · simp only [hown, true_and, if_true, put, eq_comm (b := field)]
    congr 1 <;> split <;> rfl
  · simp only [hown, false_and, if_false, Option.map_none, Option.none_or]

theorem readLine_row (hi : i < quantMaxVariants) (hfield : field ∈ rowFields)
    (hvalue : ∀ c ∈ value, isNumeral c = true) (last : Bool) (st : QuantizationLoad)
    (hrows : st.rows.length = quantMaxVariants) :
    st.readLine (numberLine (rowKey i field) value last) =
      { st with rows := st.rows.modify i fun row => put row field (stod value) } := by
  have honly : OnlyField (numberLine (rowKey i field) value last) (rowKey i field) :=
    onlyField_numberLine (fieldName_rowKey i hfield) hvalue last
  rw [readLine, honly.int (by decide) (rowKey_ne i hi field hfield _ (by decide)),
    honly.int (by decide) (rowKey_ne i hi field hfield _ (by decide)),
    honly.string (by decide) (rowKey_ne i hi field hfield _ (by decide))]
  dsimp only
  congr 1
  refine List.ext_getElem? fun j => ?_
  rw [List.getElem?_mapIdx, List.getElem?_modify, Option.map_eq_map]
  by_cases hj : j < st.rows.length
  · rw [List.getElem?_eq_getElem hj, Option.map_some, Option.map_some,
      read_row hi (hrows ▸ hj) hfield hvalue]
    simp only [eq_comm]
  · rw [List.getElem?_eq_none (not_lt.mp hj)]
    rfl

/-- The lines of a row, the last one with the text `size`. -/
def rowLinesWith (i : Nat) (row : QuantizationMeasurement) (size : Bytes) (last : Bool) :
    List Bytes := [
  numberLine (rowKey i "quantization") (showInt row.quantization) false,
  numberLine (rowKey i "docs_per_sec") (showDouble row.docsPerSec) false,
  numberLine (rowKey i "latency_ms") (showDouble row.latencyMs) false,
  numberLine (rowKey i "file_mb") size last]

/-- What these four lines make of a row. -/
def fill (row : QuantizationMeasurement) (size : Bytes) (found : QuantizationRow) :
    QuantizationRow :=
  put (put (put (put found "quantization" (stod (showInt row.quantization)))
    "docs_per_sec" (stod (showDouble row.docsPerSec)))
      "latency_ms" (stod (showDouble row.latencyMs)))
        "file_mb" (stod size)

/-- What the reader makes of a row with `size` for its size. -/
def readBackWith (row : QuantizationMeasurement) (size : Option ℚ) : QuantizationRow :=
  { readBack row with fileMb := size }

def emptyRow : QuantizationRow := {}

theorem fill_empty (row : QuantizationMeasurement) (size : Bytes) :
    fill row size emptyRow = readBackWith row (stod size) := by
  simp [fill, put, readBack, readBackWith, emptyRow]

theorem length_readLine (st : QuantizationLoad) (line : Bytes) :
    (st.readLine line).rows.length = st.rows.length := by
  unfold readLine
  split
  · rfl
  · split
    · rfl
    · split
      · rfl
      · exact List.length_mapIdx

theorem foldl_rowLines (hi : i < quantMaxVariants) (st : QuantizationLoad)
    (hrows : st.rows.length = quantMaxVariants) (row : QuantizationMeasurement)
    (hsize : ∀ c ∈ size, isNumeral c = true) (last : Bool) :
    (rowLinesWith i row size last).foldl readLine st =
      { st with rows := st.rows.modify i (fill row size) } := by
  simp only [rowLinesWith, List.foldl_cons, List.foldl_nil]
  rw [readLine_row hi (by decide) (numeral_showInt _) _ _ hrows,
    readLine_row hi (by decide) (numeral_showDouble _) _ _ (by simpa [length_readLine] using hrows),
    readLine_row hi (by decide) (numeral_showDouble _) _ _ (by simpa [length_readLine] using hrows),
    readLine_row hi (by decide) hsize _ _ (by simpa [length_readLine] using hrows)]
  simp only [List.modify_modify_eq]
  rfl

theorem modify_length_append (f : α → α) (init : List α) (a : α) (tail : List α) :
    (init ++ a :: tail).modify init.length f = init ++ f a :: tail := by
  induction init with
  | nil => rfl
  | cons b init ih => exact congrArg (List.cons b) ih

/-- The rows of which the first are read. -/
def readRows (rows : List QuantizationRow) : List QuantizationRow :=
  rows ++ List.replicate (quantMaxVariants - rows.length) emptyRow

theorem length_readRows {rows : List QuantizationRow} (h : rows.length ≤ quantMaxVariants) :
    (readRows rows).length = quantMaxVariants := by
  rw [readRows, List.length_append, List.length_replicate]
  omega

/-- A row is read into the next place. -/
theorem readRows_modify (rows : List QuantizationRow) (h : rows.length < quantMaxVariants)
    (f : QuantizationRow → QuantizationRow) :
    (readRows rows).modify rows.length f = readRows (rows ++ [f emptyRow]) := by
  obtain ⟨room, hroom⟩ : ∃ room, quantMaxVariants - rows.length = room + 1 :=
    ⟨quantMaxVariants - rows.length - 1, by omega⟩
  have hrest : quantMaxVariants - (rows ++ [f emptyRow]).length = room := by
    rw [List.length_append, List.length_singleton]
    omega
  rw [readRows, hroom, List.replicate_succ, modify_length_append, readRows, hrest,
    List.append_assoc]
  rfl

/-- The lines of rows that others follow. -/
def rowsFront (i : Nat) : List QuantizationMeasurement → List Bytes
  | [] => []
  | row :: rows => rowLines i row false ++ rowsFront (i + 1) rows

theorem rowsLines_concat (i : Nat) (rows : List QuantizationMeasurement)
    (row : QuantizationMeasurement) :
    rowsLines i (rows ++ [row]) = rowsFront i rows ++ rowLines (i + rows.length) row true := by
  induction rows generalizing i with
  | nil => exact List.append_nil _
  | cons other rows ih =>
    have hmore : (rows ++ [row]).isEmpty = false := by cases rows <;> rfl
    rw [List.cons_append, rowsLines, hmore, ih, rowsFront, List.append_assoc, List.length_cons]
    congr 3
    omega

/-- The lines of the rows fill the rows one after another. -/
theorem foldl_rowsFront (done rows : List QuantizationMeasurement)
    (hlength : done.length + rows.length ≤ quantMaxVariants) (st : QuantizationLoad)
    (hst : st.rows = readRows (done.map readBack)) :
    (rowsFront done.length rows).foldl readLine st =
      { st with rows := readRows ((done ++ rows).map readBack) } := by
  induction rows generalizing done st with
  | nil =>
    rw [List.append_nil, ← hst]
    rfl
  | cons row rows ih =>
    rw [List.length_cons] at hlength
    have hdone : (done.map readBack).length = done.length := List.length_map _
    have hrows : st.rows.length = quantMaxVariants := by
      rw [hst]
      exact length_readRows (by omega)
    have hfill : st.rows.modify done.length (fill row (showDouble row.fileMb)) =
        readRows ((done ++ [row]).map readBack) := by
      have hnext := readRows_modify (done.map readBack) (by omega) (fill row (showDouble row.fileMb))
      rw [hdone, fill_empty] at hnext
      rw [hst, hnext, List.map_append]
      rfl
    have hnext : (done ++ [row]).length = done.length + 1 := by simp
    have hown : (rowLines done.length row false).foldl readLine st = _ :=
      foldl_rowLines (by omega) st hrows row (numeral_showDouble _) false
    rw [rowsFront, List.foldl_append, hown, hfill, ← hnext,
      ih (done ++ [row]) (by rw [hnext]; omega) _ rfl]
    simp

/-- The lines of all rows, the last one with the text `size` for its size. -/
theorem foldl_rowsWith (rows : List QuantizationMeasurement) (row : QuantizationMeasurement)
    (hlength : rows.length < quantMaxVariants) (hsize : ∀ c ∈ size, isNumeral c = true)
    (st : QuantizationLoad) (hst : st.rows = readRows []) :
    (rowsFront 0 rows ++ rowLinesWith rows.length row size true).foldl readLine st =
      { st with rows := readRows (rows.map readBack ++ [readBackWith row (stod size)]) } := by
  have hrows : (rows.map readBack).length = rows.length := List.length_map _
  have hnext := readRows_modify (rows.map readBack) (by omega) (fill row size)
  rw [hrows, fill_empty] at hnext
  rw [List.foldl_append]
  have hfront := foldl_rowsFront [] rows (by simpa using hlength.le) st hst
  rw [List.length_nil, List.nil_append] at hfront
  rw [hfront, foldl_rowLines hlength _ (length_readRows (by omega)) row hsize]
  dsimp only
  rw [hnext]

theorem foldl_rowsLines (rows : List QuantizationMeasurement)
    (hlength : rows.length ≤ quantMaxVariants) (st : QuantizationLoad)
    (hst : st.rows = readRows []) :
    (rowsLines 0 rows).foldl readLine st = { st with rows := readRows (rows.map readBack) } := by
  cases rows using List.reverseRecOn with
  | nil =>
    rw [List.map_nil, ← hst]
    rfl
  | append_singleton rows row =>
    rw [List.length_append, List.length_singleton] at hlength
    rw [rowsLines_concat, Nat.zero_add, List.map_append]
    exact foldl_rowsWith rows row (by omega) (numeral_showDouble _) st hst

-- ---------------------------------------------------------------------------
-- The whole document
-- ---------------------------------------------------------------------------

/-- A row whose numbers are read back. What a double overflows to, or a subnormal one, is not. -/
def Readable (row : QuantizationMeasurement) : Prop := (readBack row).full.isSome = true

instance (row : QuantizationMeasurement) : Decidable (Readable row) := inferInstanceAs (Decidable (_ = _))

theorem completeRows_empty (n : Nat) : completeRows (List.replicate n emptyRow) = [] := by
  cases n with
  | zero => rfl
  | succ n => rfl

theorem completeRows_cons {row : QuantizationRow} (h : row.full = some m)
    (rows : List QuantizationRow) : completeRows (row :: rows) = m :: completeRows rows := by
  simp [completeRows, h]

theorem completeRows_stop {row : QuantizationRow} (h : row.full = none)
    (rows : List QuantizationRow) : completeRows (row :: rows) = [] := by
  simp [completeRows, h]

theorem completeRows_length (measured : List QuantizationMeasurement) (room : Nat) :
    (completeRows (measured.map readBack ++ List.replicate room emptyRow)).length =
      measured.length ↔ ∀ row ∈ measured, Readable row := by
  induction measured with
  | nil => simp [completeRows_empty]
  | cons row measured ih =>
    rw [List.forall_mem_cons, ← ih, List.map_cons, List.cons_append]
    cases hfull : (readBack row).full with
    | none =>
      rw [completeRows_stop hfull]
      simp [Readable, hfull]
    | some m =>
      rw [completeRows_cons hfull]
      simp [Readable, hfull]

theorem rowsLines_noNewline (rows : List QuantizationMeasurement) (i : Nat) :
    ∀ line ∈ rowsLines i rows, 10 ∉ line := by
  induction rows generalizing i with
  | nil => exact fun _ h => absurd h List.not_mem_nil
  | cons row rows ih =>
    intro line hline
    rw [rowsLines.eq_def] at hline
    rcases List.mem_append.mp hline with hown | hother
    · simp only [rowLines, List.mem_cons, List.not_mem_nil, or_false] at hown
      rcases hown with rfl | rfl | rfl | rfl
      · exact numberLine_noNewline (fieldName_rowKey i (by decide)) (numeral_showInt _) _
      · exact numberLine_noNewline (fieldName_rowKey i (by decide)) (numeral_showDouble _) _
      · exact numberLine_noNewline (fieldName_rowKey i (by decide)) (numeral_showDouble _) _
      · exact numberLine_noNewline (fieldName_rowKey i (by decide)) (numeral_showDouble _) _
    · exact ih (i + 1) line hother

theorem choiceLines_noNewline (choice : QuantizationChoice) :
    ∀ line ∈ choiceLines choice, 10 ∉ line := by
  intro line hline
  simp only [choiceLines, List.mem_cons] at hline
  rcases hline with rfl | rfl | rfl | hrows
  · exact numberLine_noNewline (by decide) (numeral_showInt _) _
  · exact numberLine_noNewline (by decide) (numeral_showInt _) _
  · exact stringLine_noNewline (by decide) (escaped_escape choice.reason).noNewline
  · exact rowsLines_noNewline _ 0 line hrows

theorem readLine_unquoted (hline : 34 ∉ line) (st : QuantizationLoad) : st.readLine line = st :=
  readLine_other (onlyField_unquoted hline) (by decide) (by decide) (by decide) st

/-- The loader finds nothing in an identity, a variant named after one of its fields included. -/
theorem foldl_identity {id : CacheIdentity} (hid : id.Legible) (st : QuantizationLoad) :
    id.lines.foldl readLine st = st := by
  have hnames : ∀ name ∈ identityNames, name.head? ≠ some 113 ∧ ascii "num_measured" ≠ name ∧
      ascii "reason" ≠ name := by decide
  refine foldl_skipped (fun line hline st => ?_) st
  obtain ⟨name, hname, honly⟩ := hid.onlyField line hline
  obtain ⟨hhead, hmeasured, hreason⟩ := hnames name hname
  exact readLine_other honly hhead hmeasured hreason st

/-- The lines of an entry come to what was stored in it. -/
theorem foldl_document {id : CacheIdentity} (hid : id.Legible)
    (choice : QuantizationChoice)
    (hlow : intMin ≤ choice.quantization) (hhigh : choice.quantization ≤ intMax)
    (hrows : choice.measured.length ≤ quantMaxVariants) :
    (linesOf (quantAutoDocument id choice)).foldl readLine {} = {
      best := choice.quantization
      numMeasured := choice.measured.length
      reason := choice.reason
      rows := readRows (choice.measured.map readBack) } := by
  have hcount : (choice.measured.length : Int) ≤ intMax :=
    le_trans (Int.ofNat_le.mpr hrows) (by decide)
  have hcountMin : intMin ≤ (choice.measured.length : Int) :=
    le_trans (by decide) (Int.natCast_nonneg _)
  rw [quantAutoDocument, linesOf_entry hid (choiceLines_noNewline choice),
    List.foldl_cons, readLine_unquoted (by decide), List.foldl_append, foldl_identity hid,
    List.foldl_append, List.foldl_cons, List.foldl_nil, readLine_unquoted (by decide), choiceLines,
    List.foldl_cons, readLine_quantization _ _ hlow hhigh, List.foldl_cons,
    readLine_numMeasured _ _ hcountMin hcount, List.foldl_cons, readLine_reason,
    List.take_of_length_le hrows]
  exact foldl_rowsLines choice.measured hrows _ rfl

theorem finish_stored (measured : List QuantizationMeasurement) (reason : Bytes) {mode : Int}
    (hlow : 0 ≤ mode) :
    ({ best := mode, numMeasured := measured.length, reason,
        rows := readRows (measured.map readBack) } :
      QuantizationLoad).finish.map (·.quantization) =
      if measured ≠ [] ∧ ∀ row ∈ measured, Readable row then some mode else none := by
  have hcomplete : (completeRows (readRows (measured.map readBack))).length = measured.length ↔
      ∀ row ∈ measured, Readable row := completeRows_length measured _
  unfold finish
  dsimp only
  split
  · rename_i hrefused
    rw [if_neg]
    · rfl
    · rintro ⟨hne, hall⟩
      have hlength := hcomplete.mpr hall
      rcases hrefused with hneg | hnil | hcount
      · exact absurd hneg (not_lt.mpr hlow)
      · rw [hnil] at hlength
        exact hne (List.eq_nil_of_length_eq_zero hlength.symm)
      · exact hcount (congrArg Nat.cast hlength.symm)
  · rename_i haccepted
    rw [not_or, not_or, not_not] at haccepted
    obtain ⟨-, hne, hcount⟩ := haccepted
    have hlength := (Int.ofNat_inj.mp hcount).symm
    rw [if_pos]
    · rfl
    · refine ⟨?_, hcomplete.mp hlength⟩
      rintro rfl
      exact hne (List.eq_nil_of_length_eq_zero hlength)

/-- What is loaded from an entry is the mode that was stored, for its owner, and only if every
number of its rows is read back. -/
theorem load_document {id : CacheIdentity} (want : CacheIdentity) (hid : id.Legible)
    (choice : QuantizationChoice)
    (hlow : 0 ≤ choice.quantization) (hhigh : choice.quantization ≤ intMax)
    (hrows : choice.measured.length ≤ quantMaxVariants) :
    (quantAutoLoad (quantAutoDocument id choice) want).map (·.quantization) =
      if id = want ∧ choice.measured ≠ [] ∧ ∀ row ∈ choice.measured, Readable row then
        some choice.quantization
      else none := by
  have hfold := foldl_document hid choice (le_trans (by decide) hlow) hhigh hrows
  have howner : CacheIdentity.matches (quantAutoDocument id choice) want = decide (id = want) :=
    CacheIdentity.matches_entry hid (choiceLines_noNewline choice)
  unfold quantAutoLoad
  rw [howner, hfold]
  by_cases hmatches : id = want
  · rw [if_pos (decide_eq_true hmatches), finish_stored _ _ hlow]
    simp only [hmatches, true_and]
  · rw [if_neg (by simpa using hmatches), if_neg fun h => hmatches h.1]
    rfl

end QuantizationLoad

end LibEmbedding
