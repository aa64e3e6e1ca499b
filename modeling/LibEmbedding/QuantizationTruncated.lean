import LibEmbedding.AutotuneCacheTruncated
import LibEmbedding.QuantizationRoundTrip

/-!
# Stored decisions cut short

The loader does not ask for the brace that closes an entry. Cut anywhere before the size of the
last row, an entry is refused; cut within that size, it is taken with the digits that are left.
-/

namespace LibEmbedding

open Foundation

namespace QuantizationLoad

-- ---------------------------------------------------------------------------
-- Lines that complete nothing
-- ---------------------------------------------------------------------------

/-- No part of the line gives the size of row `n`, or another number of rows than `count`. -/
def Silent (n count : Nat) (line : Bytes) : Prop :=
  ∀ part, part <+: line → jsonNumber part (rowKey n "file_mb") = none ∧
    ∀ m, jsonInt part (ascii "num_measured") = some m → m = count

theorem silent_of_onlyField (h : OnlyField line name) (hsize : rowKey n "file_mb" ≠ name)
    (hcount : ascii "num_measured" ≠ name) : Silent n count line := by
  intro part hpre
  have hpart := h.of_prefix hpre
  refine ⟨hpart.number (fieldName_rowKey n (by decide)) hsize, fun m hm => ?_⟩
  rw [hpart.int (by decide) hcount] at hm
  cases hm

theorem silent_numMeasured (hn : n < quantMaxVariants) (hcount : count ≤ quantMaxVariants) :
    Silent n count (numberLine (ascii "num_measured") (showInt count) false) := by
  have honly : OnlyField (numberLine (ascii "num_measured") (showInt count) false)
      (ascii "num_measured") := onlyField_numberLine (by decide) (numeral_showInt _) false
  -- The count is one digit, so it is read whole or not at all.
  have hdigit : ∀ count ≤ quantMaxVariants,
      ∀ part ∈ (numberLine (ascii "num_measured") (showInt count) false).inits,
        jsonInt part (ascii "num_measured") = none ∨
          jsonInt part (ascii "num_measured") = some (count : Int) := by
    decide +kernel
  intro part hpre
  refine ⟨(honly.of_prefix hpre).number (fieldName_rowKey n (by decide)) ?_, fun m hm => ?_⟩
  · exact (rowKey_ne n hn "file_mb" (by decide) "num_measured" (by decide)).symm
  · rcases hdigit count hcount part ((List.mem_inits _ _).mpr hpre) with hnone | hsome
    · rw [hnone] at hm
      cases hm
    · exact Option.some.inj (hm.symm.trans hsome)

/-- The line of the last size, up to the number. -/
theorem silent_key (hn : n < quantMaxVariants) (count : Nat) :
    Silent n count (numberLine (rowKey n "file_mb") [] true) := by
  have honly : OnlyField (numberLine (rowKey n "file_mb") [] true) (rowKey n "file_mb") :=
    onlyField_numberLine (fieldName_rowKey n (by decide)) (fun _ h => absurd h List.not_mem_nil) true
  have hempty : ∀ n < quantMaxVariants,
      ∀ part ∈ (numberLine (rowKey n "file_mb") [] true).inits,
        jsonNumber part (rowKey n "file_mb") = none := by
    decide +kernel
  intro part hpre
  refine ⟨hempty n hn part ((List.mem_inits _ _).mpr hpre), fun m hm => ?_⟩
  rw [(honly.of_prefix hpre).int (by decide)
    (rowKey_ne n hn "file_mb" (by decide) "num_measured" (by decide))] at hm
  cases hm

/-- Row `n` lacks its size, and no other number of rows than `count` is known. -/
structure Short (n count : Nat) (st : QuantizationLoad) : Prop where
  size : ∀ row, st.rows[n]? = some row → row.fileMb = none
  known : st.numMeasured = -1 ∨ st.numMeasured = count

theorem short_empty (n count : Nat) : Short n count {} where
  size row hrow := by
    rw [List.getElem?_replicate] at hrow
    split at hrow
    · cases hrow
      rfl
    · cases hrow
  known := .inl rfl

theorem Short.readLine (h : Short n count st) (hline : Silent n count line)
    (hpre : part <+: line) : Short n count (st.readLine part) := by
  obtain ⟨hsize, hcount⟩ := hline part hpre
  unfold QuantizationLoad.readLine
  split
  · exact ⟨h.size, h.known⟩
  · split
    · rename_i numMeasured hm
      exact ⟨h.size, .inr (hcount _ hm)⟩
    · split
      · exact ⟨h.size, h.known⟩
      · refine ⟨fun row hrow => ?_, h.known⟩
        rw [List.getElem?_mapIdx] at hrow
        obtain ⟨found, hfound, rfl⟩ := Option.map_eq_some_iff.mp hrow
        rw [QuantizationRow.read, hsize]
        exact h.size found hfound

/-- A run over such lines, cut or whole. -/
theorem Short.foldl {parts : List Bytes} (h : Short n count st)
    (hparts : ∀ part ∈ parts, ∃ line, Silent n count line ∧ part <+: line) :
    Short n count (parts.foldl QuantizationLoad.readLine st) := by
  induction parts generalizing st with
  | nil => exact h
  | cons part parts ih =>
    rw [List.forall_mem_cons] at hparts
    obtain ⟨⟨line, hline, hpre⟩, hparts⟩ := hparts
    exact ih (h.readLine hline hpre) hparts

theorem length_completeRows_le {rows : List QuantizationRow}
    (h : ∀ row, rows[n]? = some row → row.full = none) : (completeRows rows).length ≤ n := by
  induction rows generalizing n with
  | nil => exact Nat.zero_le _
  | cons row rows ih =>
    cases n with
    | zero => rw [completeRows_stop (h row rfl), List.length_nil]
    | succ n =>
      cases hfull : row.full with
      | none =>
        rw [completeRows_stop hfull]
        exact Nat.zero_le _
      | some m =>
        rw [completeRows_cons hfull]
        exact Nat.succ_le_succ (ih h)

theorem full_of_noSize {row : QuantizationRow} (h : row.fileMb = none) : row.full = none := by
  simp [QuantizationRow.full, h]

/-- With row `n` the last of the rows, or the first, nothing is loaded. -/
theorem Short.finish (h : Short n count st) (hlast : n = 0 ∨ count = n + 1) : st.finish = none := by
  have hlength := length_completeRows_le fun row hrow => full_of_noSize (h.size row hrow)
  unfold QuantizationLoad.finish
  dsimp only
  rw [if_pos]
  refine .inr ?_
  rcases hlast with rfl | rfl
  · exact .inl (List.eq_nil_of_length_eq_zero (Nat.le_zero.mp hlength))
  · refine .inr ?_
    rcases h.known with hcount | hcount <;> omega

-- ---------------------------------------------------------------------------
-- The lines of an entry
-- ---------------------------------------------------------------------------

/-- The lines before the rows. -/
def headLines (id : CacheIdentity) (choice : QuantizationChoice) : List Bytes :=
  ascii "\x7b" :: (id.lines ++ [
    numberLine (ascii "quantization") (showInt choice.quantization) false,
    numberLine (ascii "num_measured") (showInt choice.measured.length) false,
    stringLine (ascii "reason") (quantAutoJsonEscape choice.reason)])

/-- The fields of a row before its size. -/
def ratesLines (i : Nat) (row : QuantizationMeasurement) : List Bytes := [
  numberLine (rowKey i "quantization") (showInt row.quantization) false,
  numberLine (rowKey i "docs_per_sec") (showDouble row.docsPerSec) false,
  numberLine (rowKey i "latency_ms") (showDouble row.latencyMs) false]

/-- The lines before the last size. -/
def opening (id : CacheIdentity) (choice : QuantizationChoice)
    (front : List QuantizationMeasurement) (row : QuantizationMeasurement) : List Bytes :=
  headLines id choice ++ (rowsFront 0 front ++ ratesLines front.length row)

variable {row : QuantizationMeasurement}

def sizeLine (n : Nat) (size : Bytes) : Bytes := numberLine (rowKey n "file_mb") size true

theorem lines_eq (id : CacheIdentity) {choice : QuantizationChoice}
    (hmeasured : choice.measured = front ++ [row]) (hlength : front.length < quantMaxVariants) :
    ascii "\x7b" :: (id.lines ++ (choiceLines choice ++ [ascii "\x7d"])) =
      opening id choice front row ++
        [sizeLine front.length (showDouble row.fileMb), ascii "\x7d"] := by
  have htake : choice.measured.take quantMaxVariants = front ++ [row] := by
    rw [hmeasured]
    exact List.take_of_length_le (by rw [List.length_append, List.length_singleton]; omega)
  rw [choiceLines, htake, rowsLines_concat, opening, headLines]
  simp [rowLines, ratesLines, sizeLine]

theorem silent_identity {id : CacheIdentity} (hid : id.Legible) (n count : Nat) :
    ∀ line ∈ ascii "\x7b" :: id.lines, Silent n count line := by
  have hother (name : Bytes) (hhead : name.head? ≠ some 113) (hcount : ascii "num_measured" ≠ name)
      (line : Bytes) (h : OnlyField line name) : Silent n count line :=
    silent_of_onlyField h (rowKey_head hhead n "file_mb") hcount
  intro line hline
  simp only [CacheIdentity.lines, List.mem_cons, List.not_mem_nil, or_false] at hline
  rcases hline with rfl | rfl | rfl | rfl | rfl | rfl
  · exact hother [] (by decide) (by decide) _ (onlyField_unquoted (by decide))
  · exact hother _ (by decide) (by decide) _ (onlyField_stringLine (by decide) hid.model)
  · exact hother _ (by decide) (by decide) _ (onlyField_stringLine (by decide) hid.variant)
  · exact hother _ (by decide) (by decide) _ (onlyField_stringLine (by decide) hid.corpus)
  · exact hother _ (by decide) (by decide) _ (onlyField_numberLine (by decide) (numeral_showInt _) _)
  · exact hother _ (by decide) (by decide) _ (onlyField_numberLine (by decide) (numeral_showInt _) _)

theorem silent_quantization (hn : n < quantMaxVariants) (count : Nat) (q : Int) :
    Silent n count (numberLine (ascii "quantization") (showInt q) false) :=
  silent_of_onlyField (onlyField_numberLine (by decide) (numeral_showInt q) false)
    (rowKey_ne n hn "file_mb" (by decide) "quantization" (by decide)).symm (by decide)

theorem silent_reason (n count : Nat) (reason : Bytes) :
    Silent n count (stringLine (ascii "reason") (quantAutoJsonEscape reason)) :=
  silent_of_onlyField ((escaped_escape reason).onlyField (by decide))
    (rowKey_head (by decide) n "file_mb") (by decide)

theorem silent_row (hn : n < quantMaxVariants) (hi : i < quantMaxVariants)
    (hfield : field ∈ rowFields) (hother : i ≠ n ∨ field ≠ "file_mb")
    (hvalue : ∀ c ∈ value, isNumeral c = true) (last : Bool) :
    Silent n count (numberLine (rowKey i field) value last) := by
  refine silent_of_onlyField (onlyField_numberLine (fieldName_rowKey i hfield) hvalue last) ?_
    (rowKey_ne i hi field hfield "num_measured" (by decide))
  intro hsame
  obtain ⟨rfl, rfl⟩ := rowKey_injective n hn i hi "file_mb" (by decide) field hfield hsame
  exact hother.elim (· rfl) (· rfl)

theorem silent_ratesLines (hn : n < quantMaxVariants) (row : QuantizationMeasurement) :
    ∀ line ∈ ratesLines n row, Silent n count line := by
  intro line hline
  simp only [ratesLines, List.mem_cons, List.not_mem_nil, or_false] at hline
  rcases hline with rfl | rfl | rfl
  · exact silent_row hn hn (by decide) (.inr (by decide)) (numeral_showInt _) false
  · exact silent_row hn hn (by decide) (.inr (by decide)) (numeral_showDouble _) false
  · exact silent_row hn hn (by decide) (.inr (by decide)) (numeral_showDouble _) false

theorem silent_rowsFront (hn : n < quantMaxVariants) (front : List QuantizationMeasurement)
    (hlength : i + front.length ≤ n) : ∀ line ∈ rowsFront i front, Silent n count line := by
  induction front generalizing i with
  | nil => exact fun _ h => absurd h List.not_mem_nil
  | cons row front ih =>
    rw [List.length_cons] at hlength
    have hi : i < quantMaxVariants := by omega
    have hne : i ≠ n := by omega
    intro line hline
    rcases List.mem_append.mp hline with hown | hother
    · simp only [rowLines, List.mem_cons, List.not_mem_nil, or_false] at hown
      rcases hown with rfl | rfl | rfl | rfl
      · exact silent_row hn hi (by decide) (.inl hne) (numeral_showInt _) false
      · exact silent_row hn hi (by decide) (.inl hne) (numeral_showDouble _) false
      · exact silent_row hn hi (by decide) (.inl hne) (numeral_showDouble _) false
      · exact silent_row hn hi (by decide) (.inl hne) (numeral_showDouble _) false
    · exact ih (by omega) line hother

theorem silent_headLines {id : CacheIdentity} (hid : id.Legible) (hn : n < quantMaxVariants)
    {choice : QuantizationChoice} (hrows : choice.measured.length ≤ quantMaxVariants) :
    ∀ line ∈ headLines id choice, Silent n choice.measured.length line := by
  intro line hline
  rw [headLines, ← List.cons_append, List.mem_append] at hline
  rcases hline with hidentity | hchoice
  · exact silent_identity hid _ _ line hidentity
  · simp only [List.mem_cons, List.not_mem_nil, or_false] at hchoice
    rcases hchoice with rfl | rfl | rfl
    · exact silent_quantization hn _ _
    · exact silent_numMeasured hn hrows
    · exact silent_reason _ _ _

theorem silent_opening {id : CacheIdentity} (hid : id.Legible) {choice : QuantizationChoice}
    (hmeasured : choice.measured = front ++ [row]) (hlength : front.length < quantMaxVariants) :
    ∀ line ∈ opening id choice front row, Silent front.length (front.length + 1) line := by
  have hcount : choice.measured.length = front.length + 1 := by
    rw [hmeasured, List.length_append, List.length_singleton]
  intro line hline
  rw [opening, List.mem_append, List.mem_append] at hline
  rcases hline with hhead | hfront | hrates
  · exact hcount ▸ silent_headLines hid hlength (by omega) line hhead
  · exact silent_rowsFront hlength front (by omega) line hfront
  · exact silent_ratesLines hlength row line hrates

-- ---------------------------------------------------------------------------
-- What a cut entry comes to
-- ---------------------------------------------------------------------------

/-- The entry with `size` read for the size of its last row. -/
def outcome (choice : QuantizationChoice) (front : List QuantizationMeasurement)
    (row : QuantizationMeasurement) (size : Option ℚ) : Option QuantizationChoice :=
  finish {
    best := choice.quantization
    numMeasured := choice.measured.length
    reason := choice.reason
    rows := readRows (front.map readBack ++ [readBackWith row size]) }

theorem foldl_headLines {id : CacheIdentity} (hid : id.Legible) {choice : QuantizationChoice}
    (h : choice.Typed) :
    (headLines id choice).foldl readLine {} = {
      best := choice.quantization
      numMeasured := choice.measured.length
      reason := choice.reason } := by
  have hcount : (choice.measured.length : Int) ≤ intMax :=
    le_trans (Int.ofNat_le.mpr h.rows) (by decide)
  have hcountMin : intMin ≤ (choice.measured.length : Int) :=
    le_trans (by decide) (Int.natCast_nonneg _)
  rw [headLines, List.foldl_cons, readLine_unquoted (by decide), List.foldl_append,
    foldl_identity hid, List.foldl_cons, readLine_quantization _ _ h.quantization.1 h.quantization.2,
    List.foldl_cons, readLine_numMeasured _ _ hcountMin hcount, List.foldl_cons, readLine_reason,
    List.foldl_nil]

/-- The whole lines, the last size with the text `size`. -/
theorem foldl_opening {id : CacheIdentity} (hid : id.Legible) {choice : QuantizationChoice}
    (h : choice.Typed) (hlength : front.length < quantMaxVariants)
    (hsize : ∀ c ∈ size, isNumeral c = true) :
    ((opening id choice front row ++ [sizeLine front.length size]).foldl readLine {}).finish =
      outcome choice front row (stod size) := by
  have hrows : opening id choice front row ++ [sizeLine front.length size] =
      headLines id choice ++ (rowsFront 0 front ++ rowLinesWith front.length row size true) := by
    rw [opening, List.append_assoc, List.append_assoc]
    rfl
  rw [hrows, List.foldl_append, foldl_headLines hid h, foldl_rowsWith front row hlength hsize _ rfl]
  rfl

theorem foldl_unquoted {lines : List Bytes} (h : ∀ line ∈ lines, 34 ∉ line)
    (st : QuantizationLoad) : lines.foldl readLine st = st :=
  foldl_skipped (fun line hline st => readLine_unquoted (h line hline) st) st

/-- A text with the whole of the lines before the last size, and nothing quoted behind it. -/
theorem load_of_lines {id : CacheIdentity} (hid : id.Legible) {choice : QuantizationChoice}
    (h : choice.Typed) (hlength : front.length < quantMaxVariants)
    (hlines : linesOf p = opening id choice front row ++ sizeLine front.length size :: rest)
    (hsize : ∀ c ∈ size, isNumeral c = true) (hrest : ∀ line ∈ rest, 34 ∉ line) :
    quantAutoLoad p id = outcome choice front row (stod size) := by
  have hmatches : CacheIdentity.matches p id = true := by
    rw [CacheIdentity.matches_lines hid (hlines.trans (by simp [opening, headLines]; rfl))]
    exact decide_eq_true rfl
  rw [quantAutoLoad, if_pos hmatches, hlines, List.append_cons, List.foldl_append,
    foldl_unquoted hrest]
  exact foldl_opening hid h hlength hsize

theorem sizeLine_append (n : Nat) (size : Bytes) : sizeLine n size = sizeLine n [] ++ size := by
  simp [sizeLine, numberLine]

/-- Cut short of the last size an entry is refused, behind it it is taken with what is there. -/
theorem load_prefix {id : CacheIdentity} (hid : id.Legible) {choice : QuantizationChoice}
    (h : choice.Typed) (hmeasured : choice.measured = front ++ [row])
    (hlength : front.length < quantMaxVariants) (hpre : p <+: quantAutoDocument id choice) :
    quantAutoLoad p id = none ∨
      ∃ size, size <+: showDouble row.fileMb ∧
        quantAutoLoad p id = outcome choice front row (stod size) := by
  have hsilent := silent_opening hid hmeasured hlength
  have hshort (parts : List Bytes) (hparts : ∀ part ∈ parts,
      ∃ line, Silent front.length (front.length + 1) line ∧ part <+: line)
      (hlines : linesOf p = parts) : quantAutoLoad p id = none := by
    rw [quantAutoLoad]
    split
    · rw [hlines]
      exact ((short_empty front.length (front.length + 1)).foldl hparts).finish (.inr rfl)
    · rfl
  have hopening : ∀ part ∈ opening id choice front row,
      ∃ line, Silent front.length (front.length + 1) line ∧ part <+: line :=
    fun part hpart => ⟨part, hsilent part hpart, List.prefix_rfl⟩
  have hnewline := entryLines_noNewline hid (choiceLines_noNewline choice)
  rw [quantAutoDocument, entry, lines_eq id hmeasured hlength] at hpre
  rw [lines_eq id hmeasured hlength] at hnewline
  rcases (cut_of_initial hnewline hpre).append with hfirst | ⟨cut, hrest, hlines⟩
  · refine .inl (hshort _ (fun part hpart => ?_) rfl)
    obtain ⟨line, hline, hpart⟩ := hfirst.mem part hpart
    exact ⟨line, hsilent line hline, hpart⟩
  · cases hrest with
    | none => exact .inl (hshort _ hopening (by rw [hlines, List.append_nil]))
    | @within part _ _ hpart =>
      rw [sizeLine_append] at hpart
      rcases prefix_split hpart with hkey | ⟨size, rfl, hsize⟩
      · refine .inl (hshort _ ?_ hlines)
        intro line hline
        rcases List.mem_append.mp hline with hfirst | hlast
        · exact hopening line hfirst
        · exact ⟨_, silent_key hlength _, List.mem_singleton.mp hlast ▸ hkey⟩
      · rw [← sizeLine_append] at hlines
        exact .inr ⟨size, hsize, load_of_lines hid h hlength hlines
          (fun c hc => numeral_showDouble _ c (hsize.subset hc)) (by simp)⟩
    | line hclose =>
      refine .inr ⟨showDouble row.fileMb, List.prefix_rfl, load_of_lines hid h hlength hlines
        (numeral_showDouble _) fun line hline => ?_⟩
      obtain ⟨close, hin, hpart⟩ := hclose.mem line hline
      rw [List.mem_singleton.mp hin] at hpart
      exact fun hquote => absurd (hpart.subset hquote) (by decide)

/-- The whole entry. -/
theorem load_whole {id : CacheIdentity} (hid : id.Legible) {choice : QuantizationChoice}
    (h : choice.Typed) (hmeasured : choice.measured = front ++ [row])
    (hlength : front.length < quantMaxVariants) :
    quantAutoLoad (quantAutoDocument id choice) id =
      outcome choice front row (stod (showDouble row.fileMb)) := by
  have hlines := linesOf_entry hid (choiceLines_noNewline choice)
  rw [lines_eq id hmeasured hlength] at hlines
  exact load_of_lines hid h hlength hlines (numeral_showDouble _) (by decide)

/-- Whatever starts the text of the last size can be all that is left of it. -/
theorem load_within {id : CacheIdentity} (hid : id.Legible) {choice : QuantizationChoice}
    (h : choice.Typed) (hmeasured : choice.measured = front ++ [row])
    (hlength : front.length < quantMaxVariants) (hsize : size <+: showDouble row.fileMb) :
    ∃ p, p <+: quantAutoDocument id choice ∧
      quantAutoLoad p id = outcome choice front row (stod size) := by
  have hnumeral : ∀ c ∈ size, isNumeral c = true :=
    fun c hc => numeral_showDouble _ c (hsize.subset hc)
  have hnewline := entryLines_noNewline hid (choiceLines_noNewline choice)
  rw [lines_eq id hmeasured hlength] at hnewline
  have hlines : linesOf (document (opening id choice front row) ++ sizeLine front.length size) =
      opening id choice front row ++ [sizeLine front.length size] := by
    refine linesOf_partial (fun line hline => hnewline line (List.mem_append_left _ hline)) ?_ ?_
    · exact numberLine_noNewline (fieldName_rowKey _ (by decide)) hnumeral true
    · exact List.cons_ne_nil _ _
  refine ⟨document (opening id choice front row) ++ sizeLine front.length size, ?_, ?_⟩
  · obtain ⟨t, ht⟩ := hsize
    refine ⟨t ++ 10 :: document [ascii "\x7d"], ?_⟩
    rw [quantAutoDocument, entry, lines_eq id hmeasured hlength, ← ht,
      sizeLine_append _ (size ++ t), sizeLine_append _ size]
    simp [document]
  · exact load_of_lines hid h hlength hlines hnumeral (by simp)

-- ---------------------------------------------------------------------------
-- Outcomes
-- ---------------------------------------------------------------------------

/-- The loader takes the entry, whatever its last size comes to. -/
structure Accepted (id : CacheIdentity) (choice : QuantizationChoice) : Prop where
  legible : id.Legible
  mode : 0 ≤ choice.quantization
  measured : choice.measured ≠ []
  rates : ∀ row ∈ choice.measured,
    inRange (printed row.docsPerSec) = true ∧ inRange (printed row.latencyMs) = true
  sizes : ∀ row ∈ choice.measured.dropLast, inRange (printed row.fileMb) = true

theorem readBack_withSize {row : QuantizationMeasurement} (h : row.Typed) (size : Option ℚ) :
    (readBackWith row size) = {
      quantization := some row.quantization
      docsPerSec := checked (printed row.docsPerSec)
      latencyMs := checked (printed row.latencyMs)
      fileMb := size } := by
  rw [readBackWith, readBack_eq h]

variable {id : CacheIdentity} {choice : QuantizationChoice} {front : List QuantizationMeasurement}
  {row : QuantizationMeasurement}

/-- A row that lacks a field is one too few. -/
theorem outcome_incomplete (hmeasured : choice.measured = front ++ [row])
    (hbroken : ∃ found ∈ front.map readBack ++ [readBackWith row size],
      found.full = none) : outcome choice front row size = none := by
  obtain ⟨found, hfound, hfull⟩ := hbroken
  obtain ⟨i, hi⟩ := List.getElem?_of_mem hfound
  have hbound : i < front.length + 1 := by
    simpa using (List.getElem?_eq_some_iff.mp hi).1
  have hlength : (completeRows (readRows (front.map readBack ++
      [readBackWith row size]))).length ≤ i := by
    refine length_completeRows_le fun other hother => ?_
    rw [readRows, List.getElem?_append_left (List.getElem?_eq_some_iff.mp hi).1, hi] at hother
    cases hother
    exact hfull
  have hcount : choice.measured.length = front.length + 1 := by
    rw [hmeasured, List.length_append, List.length_singleton]
  unfold outcome finish
  dsimp only
  rw [if_pos (.inr (.inr (by omega)))]

theorem outcome_none (hmeasured : choice.measured = front ++ [row]) :
    outcome choice front row none = none :=
  outcome_incomplete hmeasured ⟨_, List.mem_append_right _ List.mem_cons_self, full_of_noSize rfl⟩

theorem front_normal (h : Accepted id choice) (hmeasured : choice.measured = front ++ [row]) :
    ∀ other ∈ front, other.PrintsNormal := by
  intro other hother
  have hrates := h.rates other (hmeasured ▸ List.mem_append_left _ hother)
  have hsizes := h.sizes other (by rwa [hmeasured, List.dropLast_concat])
  exact ⟨hrates.1, hrates.2, hsizes⟩

/-- An accepted entry carries the size that is left. -/
theorem outcome_some (h : choice.Typed) (hmeasured : choice.measured = front ++ [row])
    (haccepted : Accepted id choice) (v : ℚ) :
    outcome choice front row (some v) = some {
      quantization := choice.quantization
      variantModel := choice.quantization
      fromCache := true
      reason := choice.reason
      measured := front.map QuantizationMeasurement.asPrinted ++
        [{ row.asPrinted with fileMb := v }] } := by
  have htyped : ∀ other ∈ front, other.Typed :=
    fun other hother => h.measured other (hmeasured ▸ List.mem_append_left _ hother)
  have hlast : row ∈ choice.measured := hmeasured ▸ List.mem_append_right _ List.mem_cons_self
  obtain ⟨hrate, hlatency⟩ := haccepted.rates row hlast
  have hfull : (readBackWith row (some v)).full =
      some { row.asPrinted with fileMb := v } := by
    rw [readBack_withSize (h.measured row hlast), checked_eq hrate, checked_eq hlatency]
    rfl
  have hcomplete : completeRows (readRows (front.map readBack ++
      [readBackWith row (some v)])) =
      front.map QuantizationMeasurement.asPrinted ++ [{ row.asPrinted with fileMb := v }] := by
    rw [readRows, List.append_assoc, completeRows_normal front htyped
      (front_normal haccepted hmeasured), List.singleton_append, completeRows_cons hfull,
      completeRows_empty]
  unfold outcome finish
  dsimp only
  rw [hcomplete, reason_kept h.reason, if_neg]
  rintro (hneg | hnil | hcount)
  · exact absurd hneg (not_lt.mpr haccepted.mode)
  · exact List.append_ne_nil_of_right_ne_nil _ (List.cons_ne_nil _ _) hnil
  · refine hcount ?_
    rw [hmeasured, List.length_append, List.length_append, List.length_map]
    rfl

theorem full_of_subnormal {row : QuantizationMeasurement} (h : row.Typed) (size : Option ℚ)
    (hrates : ¬(inRange (printed row.docsPerSec) = true ∧ inRange (printed row.latencyMs) = true)) :
    (readBackWith row size).full = none := by
  rw [readBack_withSize h]
  rw [not_and_or] at hrates
  rcases hrates with hrate | hlatency
  · rw [show checked (printed row.docsPerSec) = none from if_neg hrate]
    rfl
  · rw [show checked (printed row.latencyMs) = none from if_neg hlatency]
    cases checked (printed row.docsPerSec) <;> rfl

/-- An entry with any other fault is refused with every size. -/
theorem outcome_refused (h : choice.Typed) (hmeasured : choice.measured = front ++ [row])
    (hid : id.Legible) (hrefused : ¬Accepted id choice) (size : Option ℚ) :
    outcome choice front row size = none := by
  by_cases hmode : 0 ≤ choice.quantization
  · have hbroken : ¬((∀ other ∈ choice.measured,
        inRange (printed other.docsPerSec) = true ∧ inRange (printed other.latencyMs) = true) ∧
        ∀ other ∈ front, inRange (printed other.fileMb) = true) := by
      rintro ⟨hrates, hsizes⟩
      refine hrefused ⟨hid, hmode, ?_, hrates, by rwa [hmeasured, List.dropLast_concat]⟩
      rw [hmeasured]
      exact List.append_ne_nil_of_right_ne_nil _ (List.cons_ne_nil _ _)
    refine outcome_incomplete hmeasured ?_
    rw [not_and_or] at hbroken
    rcases hbroken with hrates | hsizes
    · push Not at hrates
      obtain ⟨other, hother, hsubnormal⟩ := hrates
      have htyped := h.measured other hother
      rw [hmeasured] at hother
      rcases List.mem_append.mp hother with hfront | hlast
      · exact ⟨readBack other, List.mem_append_left _ (List.mem_map_of_mem hfront),
          full_of_subnormal htyped (readBack other).fileMb fun hboth => hsubnormal hboth.1 hboth.2⟩
      · obtain rfl := List.mem_singleton.mp hlast
        exact ⟨_, List.mem_append_right _ List.mem_cons_self,
          full_of_subnormal htyped size fun hboth => hsubnormal hboth.1 hboth.2⟩
    · push Not at hsizes
      obtain ⟨other, hother, hsubnormal⟩ := hsizes
      have htyped := h.measured other (hmeasured ▸ List.mem_append_left _ hother)
      refine ⟨readBack other, List.mem_append_left _ (List.mem_map_of_mem hother), ?_⟩
      refine full_of_noSize ?_
      rw [readBack_eq htyped]
      exact if_neg hsubnormal
  · unfold outcome finish
    dsimp only
    rw [if_pos (.inl (not_le.mp hmode))]

theorem load_withoutRows (hid : id.Legible) (hmeasured : choice.measured = [])
    (hpre : p <+: quantAutoDocument id choice) : quantAutoLoad p id = none := by
  have hlines : ascii "\x7b" :: (id.lines ++ (choiceLines choice ++ [ascii "\x7d"])) =
      headLines id choice ++ [ascii "\x7d"] := by
    simp [choiceLines, headLines, hmeasured, rowsLines]
  have hnewline := entryLines_noNewline hid (choiceLines_noNewline choice)
  rw [quantAutoDocument, entry, hlines] at hpre
  rw [hlines] at hnewline
  have hclose : Silent 0 choice.measured.length (ascii "\x7d") :=
    silent_of_onlyField (onlyField_unquoted (by decide)) (rowKey_head (by decide) 0 "file_mb")
      (by decide)
  rw [quantAutoLoad]
  split
  · refine ((short_empty 0 choice.measured.length).foldl fun part hpart => ?_).finish (.inl rfl)
    obtain ⟨line, hline, hpart⟩ := (cut_of_initial hnewline hpre).mem part hpart
    refine ⟨line, ?_, hpart⟩
    rcases List.mem_append.mp hline with hhead | hlast
    · exact silent_headLines hid (by decide) (by rw [hmeasured]; decide) line hhead
    · exact List.mem_singleton.mp hlast ▸ hclose
  · rfl

end QuantizationLoad

-- ---------------------------------------------------------------------------
-- Truncated entries
-- ---------------------------------------------------------------------------

/-- Whatever is left of an entry, nothing is loaded from it but what is loaded from the whole. -/
def NeverMisread (id : CacheIdentity) (choice : QuantizationChoice) : Prop :=
  ∀ p, p <+: quantAutoDocument id choice →
    quantAutoLoad p id = none ∨ quantAutoLoad p id = quantAutoLoad (quantAutoDocument id choice) id

/-- The last size is printed as one digit, behind a sign or not. -/
def DigitSize (choice : QuantizationChoice) : Prop :=
  ∀ row ∈ choice.measured.getLast?, ∃ k : Int, k.natAbs ≤ 9 ∧ printed row.fileMb = k

namespace QuantizationLoad

variable {id : CacheIdentity} {choice : QuantizationChoice} {front : List QuantizationMeasurement}
  {row : QuantizationMeasurement}

/-- A size of one digit is left whole or not at all. -/
theorem neverMisread_of_digit (hid : id.Legible) (h : choice.Typed)
    (hmeasured : choice.measured = front ++ [row]) (hlength : front.length < quantMaxVariants)
    {k : Int} (hk : k.natAbs ≤ 9) (hprinted : printed row.fileMb = k) : NeverMisread id choice := by
  have hrow : row ∈ choice.measured := hmeasured ▸ List.mem_append_right _ List.mem_cons_self
  intro p hpre
  rcases load_prefix hid h hmeasured hlength hpre with hnone | ⟨size, hsize, hload⟩
  · exact .inl hnone
  · rcases (stod_prefix_iff (h.measured row hrow).fileMb).mpr ⟨k, hk, hprinted⟩ size hsize with
      hnone | hall
    · exact .inl (by rw [hload, hnone, outcome_none hmeasured])
    · exact .inr (by rw [hload, load_whole hid h hmeasured hlength, hall])

/-- The first digit of a longer size is taken for the size. -/
theorem digit_of_neverMisread (front : List QuantizationMeasurement) (h : choice.Typed)
    (hmeasured : choice.measured = front ++ [row])
    (hlength : front.length < quantMaxVariants) (haccepted : Accepted id choice)
    (hnever : NeverMisread id choice) : ∃ k : Int, k.natAbs ≤ 9 ∧ printed row.fileMb = k := by
  have hid := haccepted.legible
  have hrow : row ∈ choice.measured := hmeasured ▸ List.mem_append_right _ List.mem_cons_self
  refine (stod_prefix_iff (h.measured row hrow).fileMb).mp fun size hsize => ?_
  obtain ⟨p, hpre, hload⟩ := load_within hid h hmeasured hlength hsize
  cases hcut : stod size with
  | none => exact .inl rfl
  | some v =>
    rw [hcut, outcome_some h hmeasured haccepted] at hload
    have hsame := (hnever p hpre).resolve_left (by rw [hload]; exact Option.some_ne_none _)
    rw [hload, load_whole hid h hmeasured hlength] at hsame
    cases hwhole : stod (showDouble row.fileMb) with
    | none =>
      rw [hwhole, outcome_none hmeasured] at hsame
      cases hsame
    | some w =>
      rw [hwhole, outcome_some h hmeasured haccepted] at hsame
      have hrows := congrArg QuantizationChoice.measured (Option.some.inj hsame)
      have hlast := List.head_eq_of_cons_eq (List.append_cancel_left hrows)
      exact .inr (congrArg some (congrArg QuantizationMeasurement.fileMb hlast))

theorem neverMisread_of_refused (h : choice.Typed) (hrefused : ¬Accepted id choice) :
    NeverMisread id choice := by
  intro p hpre
  refine .inl ?_
  by_cases hid : id.Legible
  · cases hmeasured : choice.measured using List.reverseRecOn with
    | nil => exact load_withoutRows hid hmeasured hpre
    | append_singleton front row =>
      have hrows := h.rows
      rw [hmeasured, List.length_append, List.length_singleton] at hrows
      rcases load_prefix hid h hmeasured (by omega) hpre with hnone | ⟨size, -, hload⟩
      · exact hnone
      · rw [hload, outcome_refused h hmeasured hid hrefused]
  · rw [quantAutoLoad, if_neg]
    exact fun hmatches => hid (CacheIdentity.legible_of_matches hmatches)

end QuantizationLoad

/-- A truncated entry is never misread exactly when the size of its last row is printed as one
digit, or the loader refuses the entry for another reason. -/
theorem neverMisread_iff (id : CacheIdentity) {choice : QuantizationChoice} (h : choice.Typed) :
    NeverMisread id choice ↔ (QuantizationLoad.Accepted id choice → DigitSize choice) := by
  have hrows := h.rows
  constructor
  · intro hnever haccepted row hlast
    obtain ⟨front, hmeasured⟩ := List.getLast?_eq_some_iff.mp hlast
    rw [hmeasured, List.length_append, List.length_singleton] at hrows
    exact QuantizationLoad.digit_of_neverMisread _ h hmeasured (by omega) haccepted hnever
  · intro hdigit
    by_cases haccepted : QuantizationLoad.Accepted id choice
    · obtain ⟨front, row, hmeasured⟩ : ∃ front row, choice.measured = front ++ [row] :=
        ⟨_, _, (List.dropLast_concat_getLast haccepted.measured).symm⟩
      obtain ⟨k, hk, hprinted⟩ := hdigit haccepted row (by rw [hmeasured, List.getLast?_concat]; rfl)
      rw [hmeasured, List.length_append, List.length_singleton] at hrows
      exact QuantizationLoad.neverMisread_of_digit haccepted.legible h hmeasured (by omega) hk hprinted
    · exact QuantizationLoad.neverMisread_of_refused h haccepted

theorem half_typed : (quotingChoice (845 / 10)).Typed :=
  quotingChoice_typed (by decide +kernel : FiniteDouble (845 / 10))

theorem neverMisread_iff_half : NeverMisread plainIdentity (quotingChoice (845 / 10)) ↔
    (QuantizationLoad.Accepted plainIdentity (quotingChoice (845 / 10)) →
      DigitSize (quotingChoice (845 / 10))) :=
  neverMisread_iff plainIdentity half_typed

/-- Of a last size of `84.5` an entry can be left with `8`. -/
theorem half_misread :
    (quotingChoice (845 / 10)).Typed ∧ ¬NeverMisread plainIdentity (quotingChoice (845 / 10)) := by
  have haccepted : QuantizationLoad.Accepted plainIdentity (quotingChoice (845 / 10)) := {
    legible := plainIdentity_legible
    mode := by decide
    measured := List.cons_ne_nil _ _
    rates := by
      intro row hrow
      obtain rfl := List.mem_singleton.mp hrow
      exact (by decide +kernel : inRange (printed 100) = true ∧ inRange (printed 10) = true)
    sizes := fun _ hrow => absurd hrow List.not_mem_nil }
  refine ⟨half_typed, fun hnever => ?_⟩
  obtain ⟨k, -, hprinted⟩ := QuantizationLoad.digit_of_neverMisread [] half_typed rfl
    (by decide) haccepted hnever
  have hvalue : printed (845 / 10) = 845 / 10 := by decide +kernel
  have htenth : (k : ℚ) * 10 = 845 := by
    rw [← hprinted]
    exact (congrArg (· * 10) hvalue).trans (by norm_num)
  have hwhole : k * 10 = 845 := by exact_mod_cast htenth
  omega

end LibEmbedding
