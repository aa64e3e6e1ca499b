import LibEmbedding.AutotuneCache

/-!
# Reading a document back

What the accessors find in the lines that the writers write: the value under its own key,
nothing under another, and the identity that was written.
-/

namespace LibEmbedding

open Foundation

-- ---------------------------------------------------------------------------
-- The text of numbers
-- ---------------------------------------------------------------------------

/-- The characters numbers are written in. -/
def isNumeral (c : UInt8) : Bool := isDigit c || c = 43 || c = 45 || c = 46 || c = 101

theorem isNumeral_digit (h : isDigit c = true) : isNumeral c = true := by
  simp [isNumeral, h]

theorem numeral_decimal (n : Nat) : ∀ c ∈ Foundation.decimal n, isNumeral c = true :=
  fun c hc => isNumeral_digit (decimal_digits n c hc)

theorem numeral_showInt (n : Int) : ∀ c ∈ showInt n, isNumeral c = true := by
  intro c hc
  unfold showInt at hc
  split at hc
  · rcases List.mem_cons.mp hc with rfl | hrest
    · rfl
    · exact numeral_decimal _ c hrest
  · exact numeral_decimal _ c hc

theorem numeral_dropZeros (h : ∀ c ∈ digits, isNumeral c = true) :
    ∀ c ∈ dropZeros digits, isNumeral c = true := by
  intro c hc
  exact h c (List.mem_reverse.mp (List.dropWhile_sublist _ |>.subset (List.mem_reverse.mp hc)))

theorem numeral_withFraction (hwhole : ∀ c ∈ whole, isNumeral c = true)
    (hfraction : ∀ c ∈ fraction, isNumeral c = true) :
    ∀ c ∈ withFraction whole fraction, isNumeral c = true := by
  intro c hc
  unfold withFraction at hc
  split at hc
  · exact hwhole c hc
  · rcases List.mem_append.mp hc with hleft | hright
    · exact hwhole c hleft
    · rcases List.mem_cons.mp hright with rfl | hrest
      · rfl
      · exact numeral_dropZeros hfraction c hrest

theorem numeral_showDigits (m : Nat) (exponent : Int) :
    ∀ c ∈ showDigits m exponent, isNumeral c = true := by
  have htake (n : Nat) : ∀ c ∈ (Foundation.decimal m).take n, isNumeral c = true :=
    fun c hc => numeral_decimal m c (List.mem_of_mem_take hc)
  have hdrop (n : Nat) : ∀ c ∈ (Foundation.decimal m).drop n, isNumeral c = true :=
    fun c hc => numeral_decimal m c (List.mem_of_mem_drop hc)
  intro c hc
  unfold showDigits at hc
  dsimp only at hc
  split at hc
  · rcases List.mem_append.mp hc with hmantissa | hexponent
    · exact numeral_withFraction (htake 1) (hdrop 1) c hmantissa
    · rcases List.mem_cons.mp hexponent with rfl | hsigned
      · rfl
      · rcases List.mem_cons.mp hsigned with rfl | hdigits
        · split
          · rfl
          · rfl
        · split at hdigits
          · rcases List.mem_cons.mp hdigits with rfl | hrest
            · rfl
            · exact numeral_decimal _ c hrest
          · exact numeral_decimal _ c hdigits
  · split at hc
    · refine numeral_withFraction (fun c hc => ?_) (fun c hc => ?_) c hc
      · rw [List.mem_singleton.mp hc]
        rfl
      · rcases List.mem_append.mp hc with hzeros | hdigits
        · rw [List.eq_of_mem_replicate hzeros]
          rfl
        · exact numeral_decimal m c hdigits
    · exact numeral_withFraction (htake _) (hdrop _) c hc

theorem numeral_showDouble (x : ℚ) : ∀ c ∈ showDouble x, isNumeral c = true := by
  intro c hc
  unfold showDouble at hc
  split at hc
  · rw [List.mem_singleton.mp hc]
    rfl
  · dsimp only at hc
    split at hc
    · rcases List.mem_cons.mp hc with rfl | hrest
      · rfl
      · split at hrest
        · exact numeral_showDigits _ _ c hrest
        · exact numeral_showDigits _ _ c hrest
    · split at hc
      · exact numeral_showDigits _ _ c hc
      · exact numeral_showDigits _ _ c hc

theorem numeral_facts (h : isNumeral c = true) :
    c ≠ 34 ∧ c ≠ 10 ∧ c ≠ 58 ∧ isTrimmed c = false := by
  refine ⟨?_, ?_, ?_, Bool.eq_false_iff.mpr fun htrim => ?_⟩
  · rintro rfl
    cases h
  · rintro rfl
    cases h
  · rintro rfl
    cases h
  · simp only [isTrimmed, Bool.or_eq_true, decide_eq_true_eq] at htrim
    rcases htrim with (rfl | rfl) | rfl
    · cases h
    · cases h
    · cases h

-- ---------------------------------------------------------------------------
-- Lines
-- ---------------------------------------------------------------------------

theorem linesFrom_append (hline : 10 ∉ line) (start : Bytes) :
    linesFrom start (line ++ 10 :: rest) = (start ++ line) :: linesFrom [] rest := by
  induction line generalizing start with
  | nil => rw [List.nil_append, linesFrom, if_pos rfl, List.append_nil]
  | cons c line ih =>
    have hc := List.ne_of_not_mem_cons hline
    have hline := List.not_mem_of_not_mem_cons hline
    rw [List.cons_append, linesFrom, if_neg (Ne.symm hc), ih hline, List.append_assoc]
    rfl

/-- A document is read line by line as it was written. -/
theorem linesOf_document (h : ∀ line ∈ lines, 10 ∉ line) : linesOf (document lines) = lines := by
  unfold linesOf
  induction lines with
  | nil => rfl
  | cons line lines ih =>
    have hcons : document (line :: lines) = line ++ 10 :: document lines := by
      rw [document, List.flatMap_cons, List.append_assoc]
      rfl
    rw [hcons, linesFrom_append (h line List.mem_cons_self), List.nil_append,
      ih fun other hother => h other (List.mem_cons_of_mem _ hother)]

-- ---------------------------------------------------------------------------
-- Finding a quoted name
-- ---------------------------------------------------------------------------

/-- The search passes over what cannot start the pattern. -/
theorem after_skip (hskip : c ∉ skipped) :
    after (c :: pattern) (skipped ++ rest) = after (c :: pattern) rest := by
  induction skipped with
  | nil => rfl
  | cons b skipped ih =>
    have hb := List.ne_of_not_mem_cons hskip
    have hskip := List.not_mem_of_not_mem_cons hskip
    rw [List.cons_append, after, if_neg, ih hskip]
    simp [hb]

theorem after_self (pattern rest : Bytes) (h : pattern ≠ []) :
    after pattern (pattern ++ rest) = some rest := by
  obtain ⟨c, pattern, rfl⟩ := List.exists_cons_of_ne_nil h
  rw [List.cons_append, after, ← List.cons_append, if_pos, List.drop_left]
  exact List.isPrefixOf_iff_prefix.mpr (List.prefix_append _ _)

theorem after_nil (c : UInt8) (pattern : Bytes) : after (c :: pattern) [] = none := by
  rw [after, if_neg (List.cons_ne_nil _ _)]

theorem after_quoted_nil (key : Bytes) : after (quoted key) [] = none := after_nil _ _

theorem prefix_quoted (hkey : 34 ∉ key) (hname : 34 ∉ name)
    (h : (quoted key).isPrefixOf (quoted name ++ rest) = true) : key = name := by
  have hpre : key ++ [34] <+: name ++ 34 :: rest := by
    have hcons := List.isPrefixOf_iff_prefix.mp h
    simp only [quoted, List.cons_append, List.append_assoc] at hcons
    exact (List.cons_prefix_cons.mp hcons).2
  clear h
  induction key generalizing name with
  | nil =>
    cases name with
    | nil => rfl
    | cons c name =>
      obtain ⟨rfl, -⟩ := List.cons_prefix_cons.mp hpre
      exact absurd List.mem_cons_self hname
  | cons b key ih =>
    cases name with
    | nil =>
      obtain ⟨rfl, -⟩ := List.cons_prefix_cons.mp hpre
      exact absurd List.mem_cons_self hkey
    | cons c name =>
      obtain ⟨rfl, hrest⟩ := List.cons_prefix_cons.mp hpre
      obtain rfl := ih (List.not_mem_of_not_mem_cons hkey) (List.not_mem_of_not_mem_cons hname) hrest
      rfl

/-- At a quoted text, a quoted name is found there or from the closing quote on. -/
theorem after_quoted (hkey : 34 ∉ key) (hname : 34 ∉ name) :
    after (quoted key) (quoted name ++ rest) =
      if key = name then some rest else after (quoted key) (34 :: rest) := by
  split
  · rename_i heq
    rw [heq]
    exact after_self _ _ (List.cons_ne_nil _ _)
  · rename_i hne
    have hshape : quoted name ++ rest = 34 :: (name ++ 34 :: rest) := by
      rw [quoted, List.cons_append, List.cons_append, List.append_assoc]
      rfl
    have hskip : after (quoted key) (name ++ 34 :: rest) = after (quoted key) (34 :: rest) :=
      after_skip hname
    rw [hshape, after, if_neg, hskip]
    rw [← hshape]
    exact fun h => hne (prefix_quoted hkey hname h)

/-- With no quote but the first, there is no quoted name. -/
theorem after_unquoted (hrest : 34 ∉ rest) : after (quoted key) (34 :: rest) = none := by
  have hnone : after (quoted key) (rest ++ []) = after (quoted key) [] := after_skip hrest
  rw [List.append_nil] at hnone
  rw [after, if_neg, hnone]
  · exact after_quoted_nil key
  · intro h
    have hpre := (List.cons_prefix_cons.mp (List.isPrefixOf_iff_prefix.mp h)).2
    exact hrest (hpre.subset (List.mem_append_right _ List.mem_cons_self))

-- ---------------------------------------------------------------------------
-- Fields
-- ---------------------------------------------------------------------------

/-- A field's name is no `: `, the text between a name and a quoted value, and ends before no
escaped quote. -/
structure FieldName (key : Bytes) : Prop where
  plain : Plain key
  noColon : 58 ∉ key
  noEscape : 92 ∉ key

instance : Decidable (FieldName key) :=
  decidable_of_iff (Plain key ∧ 58 ∉ key ∧ 92 ∉ key)
    ⟨fun h => ⟨h.1, h.2.1, h.2.2⟩, fun h => ⟨h.plain, h.noColon, h.noEscape⟩⟩

theorem FieldName.ne_separator (hkey : FieldName key) : key ≠ ascii ": " := by
  rintro rfl
  exact hkey.noColon (by decide)

theorem after_colon (rest : Bytes) : after (ascii ":") (ascii ": " ++ rest) = some (32 :: rest) :=
  after_self (ascii ":") (32 :: rest) (by decide)

theorem jsonValueSpan_stringLine (hkey : FieldName key) (hname : FieldName name)
    (hvalue : Plain value) :
    jsonValueSpan (stringLine name value) key =
      if key = name then some (32 :: (quoted value ++ ascii ",")) else none := by
  have hstart : after (quoted key) (stringLine name value) =
      after (quoted key) (quoted name ++ (ascii ": " ++ (quoted value ++ ascii ","))) := by
    simp only [stringLine, List.append_assoc]
    exact after_skip (by decide : (34 : UInt8) ∉ ascii "  ")
  rw [jsonValueSpan, hstart, after_quoted hkey.plain.1 hname.plain.1]
  split
  · exact after_colon _
  · -- The separator and the value are all that is quoted behind the name.
    have hseparator : after (quoted key) (34 :: (ascii ": " ++ (quoted value ++ ascii ","))) =
        after (quoted key) (quoted value ++ ascii ",") := by
      have hshape : 34 :: (ascii ": " ++ (quoted value ++ ascii ",")) =
          quoted (ascii ": ") ++ (value ++ 34 :: ascii ",") := by
        simp [quoted, ascii]
      rw [hshape, after_quoted hkey.plain.1 (by decide), if_neg hkey.ne_separator]
      simp [quoted]
    rw [hseparator, after_quoted hkey.plain.1 hvalue.1]
    split
    · rfl
    · rw [after_unquoted (by decide)]
      rfl

theorem jsonValueSpan_numberLine (hkey : FieldName key) (hname : FieldName name)
    (hvalue : ∀ c ∈ value, isNumeral c = true) (last : Bool) :
    jsonValueSpan (numberLine name value last) key =
      if key = name then some (32 :: (value ++ if last then [] else ascii ",")) else none := by
  have hstart : after (quoted key) (numberLine name value last) =
      after (quoted key) (quoted name ++ (ascii ": " ++ (value ++ if last then [] else ascii ","))) := by
    simp only [numberLine, List.append_assoc]
    exact after_skip (by decide : (34 : UInt8) ∉ ascii "  ")
  rw [jsonValueSpan, hstart, after_quoted hkey.plain.1 hname.plain.1]
  split
  · exact after_colon _
  · rw [after_unquoted]
    · rfl
    · rw [List.mem_append, List.mem_append]
      rintro (hseparator | hnumeral | hcomma)
      · revert hseparator
        decide
      · exact (numeral_facts (hvalue _ hnumeral)).1 rfl
      · revert hcomma
        cases last <;> decide

theorem jsonString_stringLine (hkey : FieldName key) (hname : FieldName name)
    (hvalue : Plain value) :
    jsonString (stringLine name value) key = if key = name then some value else none := by
  rw [jsonString, jsonValueSpan_stringLine hkey hname hvalue]
  split
  · have hopen : after [34] (32 :: (quoted value ++ ascii ",")) = some (value ++ 34 :: ascii ",") := by
      have hskip : after [34] ([32] ++ (34 :: (value ++ 34 :: ascii ","))) =
          after [34] (34 :: (value ++ 34 :: ascii ",")) := after_skip (by decide)
      have hshape : 32 :: (quoted value ++ ascii ",") = [32] ++ (34 :: (value ++ 34 :: ascii ",")) := by
        simp [quoted]
      rw [hshape, hskip]
      exact after_self [34] _ (List.cons_ne_nil _ _)
    have hclose : (value ++ 34 :: ascii ",").takeWhile (· ≠ 34) = value := by
      have hbefore : ∀ c ∈ value, decide (c ≠ 34) = true :=
        fun c hc => decide_eq_true fun heq => hvalue.1 (heq ▸ hc)
      rw [List.takeWhile_append_of_pos hbefore]
      simp
    rw [Option.bind_some, hopen, Option.bind_some, if_pos (by simp), hclose]
  · rfl

/-- The accessors cut a number out of what stands around it. -/
theorem trimJsonValue_numeral (hvalue : ∀ c ∈ value, isNumeral c = true) (last : Bool) :
    trimJsonValue (32 :: (value ++ if last then [] else ascii ",")) = value := by
  have hkeep (s : Bytes) (hs : ∀ c ∈ s, isNumeral c = true) : s.dropWhile isTrimmed = s := by
    cases s with
    | nil => rfl
    | cons c s =>
      refine List.dropWhile_cons_of_neg ?_
      rw [(numeral_facts (hs c List.mem_cons_self)).2.2.2]
      exact Bool.false_ne_true
  have hreverse : value.reverse.dropWhile isTrimmed = value.reverse :=
    hkeep _ fun c hc => hvalue c (List.mem_reverse.mp hc)
  have hend : ((value ++ if last then [] else ascii ",").reverse.dropWhile isTrimmed) =
      value.reverse := by
    cases last with
    | true => rw [if_pos rfl, List.append_nil, hreverse]
    | false =>
      rw [if_neg Bool.false_ne_true, List.reverse_append]
      exact hreverse
  have hstart : (32 :: (value ++ if last then [] else ascii ",")).dropWhile isTrimmed =
      (value ++ if last then [] else ascii ",").dropWhile isTrimmed := rfl
  rw [trimJsonValue, hstart]
  cases value with
  | nil => cases last <;> rfl
  | cons c value =>
    rw [List.cons_append, List.dropWhile_cons_of_neg, ← List.cons_append, hend,
      List.reverse_reverse]
    rw [(numeral_facts (hvalue c List.mem_cons_self)).2.2.2]
    exact Bool.false_ne_true

theorem jsonNumber_numberLine (hkey : FieldName key) (hname : FieldName name)
    (hvalue : ∀ c ∈ value, isNumeral c = true) (last : Bool) :
    jsonNumber (numberLine name value last) key = if key = name then stod value else none := by
  rw [jsonNumber, jsonValueSpan_numberLine hkey hname hvalue]
  split
  · rw [Option.bind_some]
    dsimp only
    rw [trimJsonValue_numeral hvalue]
    split
    · rename_i hnil
      rw [hnil]
      rfl
    · rfl
  · rfl

theorem jsonNumber_stringLine (hkey : FieldName key) (hname : FieldName name)
    (hvalue : Plain value) (hne : key ≠ name) : jsonNumber (stringLine name value) key = none := by
  rw [jsonNumber, jsonValueSpan_stringLine hkey hname hvalue, if_neg hne]
  rfl

theorem truncated_intCast (n : Int) : truncated (n : ℚ) = n := by
  rw [truncated, Rat.num_intCast, Rat.den_intCast]
  exact Int.tdiv_one n

-- ---------------------------------------------------------------------------
-- Lines of one field
-- ---------------------------------------------------------------------------

/-- A line on which only `name` can be found. -/
def OnlyField (line name : Bytes) : Prop :=
  ∀ key, FieldName key → key ≠ name → jsonValueSpan line key = none

theorem onlyField_stringLine (hname : FieldName name) (hvalue : Plain value) :
    OnlyField (stringLine name value) name := by
  intro key hkey hne
  rw [jsonValueSpan_stringLine hkey hname hvalue, if_neg hne]

theorem onlyField_numberLine (hname : FieldName name)
    (hvalue : ∀ c ∈ value, isNumeral c = true) (last : Bool) :
    OnlyField (numberLine name value last) name := by
  intro key hkey hne
  rw [jsonValueSpan_numberLine hkey hname hvalue, if_neg hne]

theorem onlyField_unquoted (hline : 34 ∉ line) : OnlyField line [] := by
  intro key _ _
  have hskip : after (quoted key) (line ++ []) = after (quoted key) [] := after_skip hline
  rw [List.append_nil, after_quoted_nil] at hskip
  rw [jsonValueSpan, hskip]
  rfl

theorem OnlyField.number (h : OnlyField line name) (hkey : FieldName key) (hne : key ≠ name) :
    jsonNumber line key = none := by
  rw [jsonNumber, h key hkey hne]
  rfl

theorem OnlyField.int (h : OnlyField line name) (hkey : FieldName key) (hne : key ≠ name) :
    jsonInt line key = none := by
  rw [jsonInt, h.number hkey hne]
  rfl

theorem jsonInt_numberLine (hkey : FieldName key) (n : Int) (hmin : intMin ≤ n) (hmax : n ≤ intMax)
    (last : Bool) : jsonInt (numberLine key (showInt n) last) key = some n := by
  have hsize : n.natAbs < 2 ^ 1024 := by
    have hword : n.natAbs ≤ 2 ^ 31 := by
      simp only [intMin, intMax] at hmin hmax
      omega
    exact hword.trans_lt (Nat.pow_lt_pow_right (by norm_num) (by norm_num))
  rw [jsonInt, jsonNumber_numberLine hkey hkey (numeral_showInt n), if_pos rfl,
    stod_showInt n hsize, Option.bind_some, if_neg, truncated_intCast]
  rintro (hlow | hhigh)
  · exact absurd (Int.cast_lt.mp hlow) (not_lt.mpr hmin)
  · exact absurd (Int.cast_lt.mp hhigh) (not_lt.mpr hmax)

-- ---------------------------------------------------------------------------
-- Identities
-- ---------------------------------------------------------------------------

theorem hexDigit_plain : ∀ n < 16, hexDigit n ≠ 34 ∧ hexDigit n ≠ 10 := by decide

theorem plain_hex16 (hash : UInt64) : Plain (hex16 hash) := by
  have hall : ∀ c ∈ hex16 hash, c ≠ 34 ∧ c ≠ 10 := by
    intro c hc
    obtain ⟨i, -, rfl⟩ := List.mem_map.mp hc
    exact hexDigit_plain _ (Nat.mod_lt _ (by decide))
  exact ⟨fun hquote => (hall 34 hquote).1 rfl, fun hline => (hall 10 hline).2 rfl⟩

/-- An identity that its own document can be told by. -/
structure CacheIdentity.Legible (id : CacheIdentity) : Prop where
  model : Plain id.model
  variant : Plain id.variant
  corpus : Plain id.corpus
  objective : id.objective.natAbs < 2 ^ 1024
  mode : id.mode.natAbs < 2 ^ 1024

theorem quoted_noNewline (h : 10 ∉ s) : 10 ∉ quoted s := by
  rw [quoted, List.cons_append, List.mem_cons, List.mem_append, List.mem_singleton]
  rintro (hopen | hs | hclose)
  · cases hopen
  · exact h hs
  · cases hclose

theorem stringLine_noNewline (hname : FieldName name) (hvalue : 10 ∉ value) :
    10 ∉ stringLine name value := by
  simp only [stringLine, List.mem_append, not_or]
  exact ⟨⟨⟨⟨by decide, quoted_noNewline hname.plain.2⟩, by decide⟩, quoted_noNewline hvalue⟩,
    by decide⟩

theorem numberLine_noNewline (hname : FieldName name)
    (hvalue : ∀ c ∈ value, isNumeral c = true) (last : Bool) :
    10 ∉ numberLine name value last := by
  simp only [numberLine, List.mem_append, not_or]
  refine ⟨⟨⟨⟨by decide, quoted_noNewline hname.plain.2⟩, by decide⟩, ?_⟩, ?_⟩
  · exact fun hmem => (numeral_facts (hvalue _ hmem)).2.1 rfl
  · cases last <;> decide

/-- The fields of an identity. -/
def identityNames : List Bytes := ["model", "variant", "corpus", "objective", "mode"].map ascii

/-- Each line of an identity holds one field of an identity. -/
theorem CacheIdentity.Legible.onlyField {id : CacheIdentity} (hid : id.Legible) :
    ∀ line ∈ id.lines, ∃ name ∈ identityNames, OnlyField line name := by
  intro line hline
  simp only [CacheIdentity.lines, List.mem_cons, List.not_mem_nil, or_false] at hline
  rcases hline with rfl | rfl | rfl | rfl | rfl
  · exact ⟨ascii "model", by decide, onlyField_stringLine (by decide) hid.model⟩
  · exact ⟨ascii "variant", by decide, onlyField_stringLine (by decide) hid.variant⟩
  · exact ⟨ascii "corpus", by decide, onlyField_stringLine (by decide) hid.corpus⟩
  · exact ⟨ascii "objective", by decide, onlyField_numberLine (by decide) (numeral_showInt _) false⟩
  · exact ⟨ascii "mode", by decide, onlyField_numberLine (by decide) (numeral_showInt _) false⟩

/-- Lines that a reader skips leave it as it was. -/
theorem foldl_skipped {read : σ → Bytes → σ} {lines : List Bytes}
    (h : ∀ line ∈ lines, ∀ st, read st line = st) (st : σ) : lines.foldl read st = st := by
  induction lines generalizing st with
  | nil => rfl
  | cons line lines ih =>
    rw [List.forall_mem_cons] at h
    rw [List.foldl_cons, h.1, ih h.2]

theorem CacheIdentity.Legible.lines_noNewline {id : CacheIdentity} (hid : id.Legible) :
    ∀ line ∈ id.lines, 10 ∉ line := by
  intro line hline
  simp only [CacheIdentity.lines, List.mem_cons, List.not_mem_nil, or_false] at hline
  rcases hline with rfl | rfl | rfl | rfl | rfl
  · exact stringLine_noNewline (by decide) hid.model.2
  · exact stringLine_noNewline (by decide) hid.variant.2
  · exact stringLine_noNewline (by decide) hid.corpus.2
  · exact numberLine_noNewline (by decide) (numeral_showInt _) _
  · exact numberLine_noNewline (by decide) (numeral_showInt _) _

theorem entryLines_noNewline {id : CacheIdentity} (hid : id.Legible)
    (hfields : ∀ line ∈ fields, 10 ∉ line) :
    ∀ line ∈ ascii "\x7b" :: (id.lines ++ (fields ++ [ascii "\x7d"])), 10 ∉ line := by
  intro line hline
  rcases List.mem_cons.mp hline with rfl | hrest
  · decide
  · rcases List.mem_append.mp hrest with hown | hfurther
    · exact hid.lines_noNewline line hown
    · rcases List.mem_append.mp hfurther with hfield | hclose
      · exact hfields line hfield
      · rw [List.mem_singleton.mp hclose]
        decide

theorem linesOf_entry {id : CacheIdentity} (hid : id.Legible)
    (hfields : ∀ line ∈ fields, 10 ∉ line) :
    linesOf (entry id fields) = ascii "\x7b" :: (id.lines ++ (fields ++ [ascii "\x7d"])) :=
  linesOf_document (entryLines_noNewline hid hfields)

theorem model_of_lines {id : CacheIdentity} (hid : id.Legible)
    (hlines : linesOf content = ascii "\x7b" :: (id.lines ++ rest)) :
    jsonStringIn content (ascii "model") = some id.model := by
  rw [jsonStringIn, hlines]
  simp only [List.findSome?_cons, CacheIdentity.lines, List.cons_append]
  rw [show jsonString (ascii "\x7b") (ascii "model") = none by decide,
    jsonString_stringLine (by decide) (by decide) hid.model, if_pos rfl]

theorem entry_model {id : CacheIdentity} (hid : id.Legible)
    (hfields : ∀ line ∈ fields, 10 ∉ line) :
    jsonStringIn (entry id fields) (ascii "model") = some id.model :=
  model_of_lines hid (linesOf_entry hid hfields)

/-- A text that opens with an identity is its owner's, whatever lines follow. -/
theorem CacheIdentity.matches_lines {id want : CacheIdentity} (hid : id.Legible)
    (hlines : linesOf content = ascii "\x7b" :: (id.lines ++ rest)) :
    CacheIdentity.matches content want = decide (id = want) := by
  have hmodel := model_of_lines hid hlines
  have hvariant : jsonStringIn content (ascii "variant") = some id.variant := by
    rw [jsonStringIn, hlines]
    simp only [List.findSome?_cons, CacheIdentity.lines, List.cons_append]
    rw [show jsonString (ascii "\x7b") (ascii "variant") = none by decide,
      jsonString_stringLine (by decide) (by decide) hid.model, if_neg (by decide),
      jsonString_stringLine (by decide) (by decide) hid.variant, if_pos rfl]
  have hcorpus : jsonStringIn content (ascii "corpus") = some id.corpus := by
    rw [jsonStringIn, hlines]
    simp only [List.findSome?_cons, CacheIdentity.lines, List.cons_append]
    rw [show jsonString (ascii "\x7b") (ascii "corpus") = none by decide,
      jsonString_stringLine (by decide) (by decide) hid.model, if_neg (by decide),
      jsonString_stringLine (by decide) (by decide) hid.variant, if_neg (by decide),
      jsonString_stringLine (by decide) (by decide) hid.corpus, if_pos rfl]
  have hobjective : jsonNumberIn content (ascii "objective") =
      some (id.objective : ℚ) := by
    rw [jsonNumberIn, hlines]
    simp only [List.findSome?_cons, CacheIdentity.lines, List.cons_append]
    rw [show jsonNumber (ascii "\x7b") (ascii "objective") = none by decide,
      jsonNumber_stringLine (by decide) (by decide) hid.model (by decide),
      jsonNumber_stringLine (by decide) (by decide) hid.variant (by decide),
      jsonNumber_stringLine (by decide) (by decide) hid.corpus (by decide),
      jsonNumber_numberLine (by decide) (by decide) (numeral_showInt _), if_pos rfl,
      stod_showInt _ hid.objective]
  have hmode : jsonNumberIn content (ascii "mode") = some (id.mode : ℚ) := by
    rw [jsonNumberIn, hlines]
    simp only [List.findSome?_cons, CacheIdentity.lines, List.cons_append]
    rw [show jsonNumber (ascii "\x7b") (ascii "mode") = none by decide,
      jsonNumber_stringLine (by decide) (by decide) hid.model (by decide),
      jsonNumber_stringLine (by decide) (by decide) hid.variant (by decide),
      jsonNumber_stringLine (by decide) (by decide) hid.corpus (by decide),
      jsonNumber_numberLine (by decide) (by decide) (numeral_showInt _), if_neg (by decide),
      jsonNumber_numberLine (by decide) (by decide) (numeral_showInt _), if_pos rfl,
      stod_showInt _ hid.mode]
  rw [CacheIdentity.matches, hmodel, hvariant, hcorpus, hobjective, hmode]
  dsimp only
  rw [truncated_intCast, truncated_intCast]
  cases id
  cases want
  simp [Bool.and_assoc]

/-- An entry is its owner's and nobody else's. -/
theorem CacheIdentity.matches_entry {id want : CacheIdentity} (hid : id.Legible)
    (hfields : ∀ line ∈ fields, 10 ∉ line) :
    CacheIdentity.matches (entry id fields) want = decide (id = want) :=
  CacheIdentity.matches_lines hid (linesOf_entry hid hfields)

-- ---------------------------------------------------------------------------
-- Files
-- ---------------------------------------------------------------------------

namespace AutotuneFiles

variable (files : AutotuneFiles) (path content other : Bytes)

theorem read_filter (hother : other ≠ path) :
    AutotuneFiles.read (files.filter (·.1 ≠ path)) other = files.read other := by
  unfold AutotuneFiles.read
  rw [List.find?_filter]
  congr 2
  funext file
  by_cases hfile : file.1 = other
  · simp [hfile, hother]
  · simp [hfile]

theorem read_filter_self : AutotuneFiles.read (files.filter (·.1 ≠ path)) path = none := by
  unfold AutotuneFiles.read
  rw [List.find?_filter, Option.map_eq_none_iff, List.find?_eq_none]
  intro file _
  simp

/-- A write leaves every other file alone. -/
theorem read_write_other (saving : Saving) (hother : other ≠ path) :
    (files.write path content saving).read other = files.read other := by
  cases saving with
  | stored =>
    rw [← read_filter files path other hother]
    unfold AutotuneFiles.write AutotuneFiles.read
    rw [List.find?_cons_of_neg (by simpa using Ne.symm hother)]
  | kept => rfl
  | lost => exact read_filter files path other hother

/-- What a write leaves under its path. -/
theorem read_write_self (saving : Saving) :
    (files.write path content saving).read path =
      match saving with
      | .stored => some content
      | .kept => files.read path
      | .lost => none := by
  cases saving with
  | stored =>
    unfold AutotuneFiles.write AutotuneFiles.read
    rw [List.find?_cons_of_pos (by simp)]
    rfl
  | kept => rfl
  | lost => exact read_filter_self files path

/-- What is read after a write was there before or has just been written. -/
theorem read_write_cases (saving : Saving)
    (h : (files.write path content saving).read other = some found) :
    files.read other = some found ∨ other = path ∧ found = content := by
  by_cases hother : other = path
  · subst hother
    rw [read_write_self] at h
    cases saving with
    | stored => exact .inr ⟨rfl, (Option.some.inj h).symm⟩
    | kept => exact .inl h
    | lost => cases h
  · exact .inl (read_write_other files path content other saving hother ▸ h)

end AutotuneFiles

end LibEmbedding
