import LibEmbedding.AutotuneCacheReads
import LibEmbedding.QuantizationAuto

/-!
# A free text in a document

The reason of a decision is escaped on the way out. Whatever bytes it holds, the reader finds
its end, undoes the escapes, and finds no other field in it.
-/

namespace LibEmbedding

open Foundation

/-- A text that is quoted as it stands: a backslash takes the next byte with it, and no other
byte is a quote or ends the line. -/
inductive Escaped : Bytes → Prop
  | nil : Escaped []
  | byte : c ≠ 34 → c ≠ 92 → c ≠ 10 → Escaped s → Escaped (c :: s)
  | escape : n ≠ 10 → Escaped s → Escaped (92 :: n :: s)

-- ---------------------------------------------------------------------------
-- Escapes and their inverse
-- ---------------------------------------------------------------------------

theorem controlOf_digits : ∀ c : UInt8, c < 32 →
    controlOf 48 48 (hexDigit (c.toNat / 16)) (hexDigit (c.toNat % 16)) = some c :=
  forall_byte (by decide +kernel)

/-- How a byte is written. -/
inductive Written (c : UInt8) (r : Bytes) : Prop
  | plain : quantAutoJsonEscape (c :: r) = c :: quantAutoJsonEscape r →
      c ≠ 34 → c ≠ 92 → c ≠ 10 → Written c r
  | short (n : UInt8) : quantAutoJsonEscape (c :: r) = 92 :: n :: quantAutoJsonEscape r →
      n ≠ 10 → (∀ s, quantAutoJsonUnescape (92 :: n :: s) = c :: quantAutoJsonUnescape s) →
      Written c r
  | control : quantAutoJsonEscape (c :: r) = 92 :: 117 :: 48 :: 48 ::
        hexDigit (c.toNat / 16) :: hexDigit (c.toNat % 16) :: quantAutoJsonEscape r →
      c < 32 → Written c r

theorem written (c : UInt8) (r : Bytes) : Written c r := by
  have hcons : quantAutoJsonEscape (c :: r) = _ ++ quantAutoJsonEscape r := List.flatMap_cons
  by_cases hquote : c = 34
  · subst hquote
    exact .short 34 hcons (by decide) fun s => by simp [quantAutoJsonUnescape]
  by_cases hbackslash : c = 92
  · subst hbackslash
    exact .short 92 hcons (by decide) fun s => by simp [quantAutoJsonUnescape]
  by_cases hnewline : c = 10
  · subst hnewline
    exact .short 110 hcons (by decide) fun s => by simp [quantAutoJsonUnescape]
  by_cases hreturn : c = 13
  · subst hreturn
    exact .short 114 hcons (by decide) fun s => by simp [quantAutoJsonUnescape]
  by_cases htab : c = 9
  · subst htab
    exact .short 116 hcons (by decide) fun s => by simp [quantAutoJsonUnescape]
  rw [if_neg hquote, if_neg hbackslash, if_neg hnewline, if_neg hreturn, if_neg htab] at hcons
  by_cases hcontrol : c < 32
  · rw [if_pos hcontrol] at hcons
    exact .control hcons hcontrol
  · rw [if_neg hcontrol] at hcons
    exact .plain hcons hquote hbackslash hnewline

theorem unescape_byte (hc : c ≠ 92) (s : Bytes) :
    quantAutoJsonUnescape (c :: s) = c :: quantAutoJsonUnescape s := by
  cases s with
  | nil => rfl
  | cons n s =>
    rw [quantAutoJsonUnescape]
    exact fun h => absurd h hc

/-- The reader undoes every escape. -/
theorem unescape_escape (r : Bytes) : quantAutoJsonUnescape (quantAutoJsonEscape r) = r := by
  induction r with
  | nil => rfl
  | cons c r ih =>
    cases written c r with
    | plain hcons _ hbackslash _ => rw [hcons, unescape_byte hbackslash, ih]
    | short n hcons _ hback => rw [hcons, hback, ih]
    | control hcons hcontrol =>
      rw [hcons, quantAutoJsonUnescape]
      simp [controlOf_digits c hcontrol, ih]

theorem escaped_escape (r : Bytes) : Escaped (quantAutoJsonEscape r) := by
  induction r with
  | nil => exact .nil
  | cons c r ih =>
    cases written c r with
    | plain hcons hquote hbackslash hnewline =>
      rw [hcons]
      exact .byte hquote hbackslash hnewline ih
    | short n hcons hn _ =>
      rw [hcons]
      exact .escape hn ih
    | control hcons _ =>
      have hdigit : ∀ n < 16, hexDigit n ≠ 34 ∧ hexDigit n ≠ 92 ∧ hexDigit n ≠ 10 := by decide
      obtain ⟨hquote, hbackslash, hnewline⟩ :=
        hdigit (c.toNat / 16) (Nat.div_lt_of_lt_mul (UInt8.toNat_lt c))
      obtain ⟨hquote', hbackslash', hnewline'⟩ := hdigit (c.toNat % 16) (Nat.mod_lt _ (by decide))
      rw [hcons]
      exact .escape (by decide) <| .byte (by decide) (by decide) (by decide) <|
        .byte (by decide) (by decide) (by decide) <| .byte hquote hbackslash hnewline <|
          .byte hquote' hbackslash' hnewline' ih

namespace Escaped

theorem noNewline (h : Escaped s) : 10 ∉ s := by
  induction h with
  | nil => exact List.not_mem_nil
  | byte _ _ hnewline _ ih =>
    rw [List.mem_cons, not_or]
    exact ⟨Ne.symm hnewline, ih⟩
  | escape hn _ ih =>
    rw [List.mem_cons, List.mem_cons, not_or, not_or]
    exact ⟨by decide, Ne.symm hn, ih⟩

/-- The reader stops at the quote that closes the text. -/
theorem untilQuote_close (h : Escaped s) (rest : Bytes) :
    untilQuote (s ++ 34 :: rest) = some s := by
  induction h with
  | nil => cases rest <;> simp [untilQuote]
  | @byte c s hquote hbackslash _ _ ih =>
    obtain ⟨n, tail, htail⟩ : ∃ n tail, s ++ 34 :: rest = n :: tail := by
      cases s with
      | nil => exact ⟨34, rest, rfl⟩
      | cons n s => exact ⟨n, s ++ 34 :: rest, rfl⟩
    rw [List.cons_append, htail, untilQuote, if_neg hbackslash, if_neg hquote, ← htail, ih]
    rfl
  | escape _ _ ih =>
    rw [List.cons_append, List.cons_append, untilQuote, if_pos rfl, ih]
    rfl

-- ---------------------------------------------------------------------------
-- No other field
-- ---------------------------------------------------------------------------

/-- A name that is found behind a quote of the text is the rest of the text. -/
theorem eq_of_prefix (h : Escaped s) (hquote : 34 ∉ key) (hescape : 92 ∉ key)
    (hpre : key ++ [34] <+: s ++ 34 :: rest) : key = s := by
  induction h generalizing key with
  | nil =>
    cases key with
    | nil => rfl
    | cons b key =>
      obtain ⟨rfl, -⟩ := List.cons_prefix_cons.mp hpre
      exact absurd List.mem_cons_self hquote
  | byte hc _ _ _ ih =>
    cases key with
    | nil => exact absurd (List.cons_prefix_cons.mp hpre).1.symm hc
    | cons b key =>
      obtain ⟨rfl, hrest⟩ := List.cons_prefix_cons.mp hpre
      rw [ih (List.not_mem_of_not_mem_cons hquote) (List.not_mem_of_not_mem_cons hescape) hrest]
  | escape _ _ _ =>
    cases key with
    | nil => cases (List.cons_prefix_cons.mp hpre).1
    | cons b key =>
      obtain ⟨rfl, -⟩ := List.cons_prefix_cons.mp hpre
      exact absurd List.mem_cons_self hescape

/-- Behind a quote: the name is the rest of the text, or it is found further on. -/
theorem after_quote (h : Escaped s) (hkey : FieldName key) (rest : Bytes) :
    after (quoted key) (34 :: (s ++ 34 :: rest)) = some rest ∨
      after (quoted key) (34 :: (s ++ 34 :: rest)) = after (quoted key) (s ++ 34 :: rest) := by
  by_cases hpre : (quoted key).isPrefixOf (34 :: (s ++ 34 :: rest)) = true
  · have htail := (List.cons_prefix_cons.mp (List.isPrefixOf_iff_prefix.mp hpre)).2
    obtain rfl := h.eq_of_prefix hkey.plain.1 hkey.noEscape htail
    refine .inl ?_
    have hshape : 34 :: (key ++ 34 :: rest) = quoted key ++ rest := by simp [quoted]
    rw [hshape]
    exact after_self _ _ (List.cons_ne_nil _ _)
  · exact .inr (by rw [after, if_neg hpre])

theorem after_text (h : Escaped s) (hkey : FieldName key) (hrest : 34 ∉ rest)
    (hfound : after (quoted key) (s ++ 34 :: rest) = some found) : found = rest := by
  induction h with
  | nil =>
    rw [List.nil_append, after_unquoted hrest] at hfound
    cases hfound
  | @byte c s hc _ _ _ ih =>
    have hskip : after (quoted key) ([c] ++ (s ++ 34 :: rest)) = after (quoted key) (s ++ 34 :: rest) :=
      after_skip (by rwa [List.mem_singleton, eq_comm])
    exact ih (hskip ▸ hfound)
  | @escape n s _ hs ih =>
    have hskip : after (quoted key) ([92] ++ (n :: (s ++ 34 :: rest))) =
        after (quoted key) (n :: (s ++ 34 :: rest)) := after_skip (by decide)
    have hfound : after (quoted key) (n :: (s ++ 34 :: rest)) = some found := hskip ▸ hfound
    by_cases hn : n = 34
    · rw [hn] at hfound
      rcases hs.after_quote hkey rest with hhere | hfurther
      · exact Option.some.inj (hfound.symm.trans hhere)
      · exact ih (hfurther ▸ hfound)
    · have hskip : after (quoted key) ([n] ++ (s ++ 34 :: rest)) =
          after (quoted key) (s ++ 34 :: rest) := after_skip (by rwa [List.mem_singleton, eq_comm])
      exact ih (hskip ▸ hfound)

/-- No colon follows a name that is found in the text, so none of its values is read. -/
theorem onlyField (h : Escaped s) (hname : FieldName name) :
    OnlyField (stringLine name s) name := by
  intro key hkey hne
  have hstart : after (quoted key) (stringLine name s) =
      after (quoted key) (quoted name ++ (ascii ": " ++ (quoted s ++ ascii ","))) := by
    simp only [stringLine, List.append_assoc]
    exact after_skip (by decide : (34 : UInt8) ∉ ascii "  ")
  have hseparator : after (quoted key) (34 :: (ascii ": " ++ (quoted s ++ ascii ","))) =
      after (quoted key) (34 :: (s ++ 34 :: ascii ",")) := by
    have hshape : 34 :: (ascii ": " ++ (quoted s ++ ascii ",")) =
        quoted (ascii ": ") ++ (s ++ 34 :: ascii ",") := by
      simp [quoted, ascii]
    rw [hshape, after_quoted hkey.plain.1 (by decide), if_neg hkey.ne_separator]
  rw [jsonValueSpan, hstart, after_quoted hkey.plain.1 hname.plain.1, if_neg hne, hseparator]
  cases hfound : after (quoted key) (34 :: (s ++ 34 :: ascii ",")) with
  | none => rfl
  | some found =>
    have hrest : found = ascii "," := by
      rcases h.after_quote hkey (ascii ",") with hhere | hfurther
      · exact Option.some.inj (hfound.symm.trans hhere)
      · exact h.after_text hkey (by decide) (hfurther ▸ hfound)
    rw [hrest]
    rfl

/-- The value of the text is found whole. -/
theorem jsonString_line (h : Escaped s) (name : Bytes) :
    quantAutoJsonString (stringLine name s) name = some (quantAutoJsonUnescape s) := by
  have hstart : after (quoted name) (stringLine name s) =
      some (ascii ": " ++ (quoted s ++ ascii ",")) := by
    have hskip : after (quoted name) (stringLine name s) =
        after (quoted name) (quoted name ++ (ascii ": " ++ (quoted s ++ ascii ","))) := by
      simp only [stringLine, List.append_assoc]
      exact after_skip (by decide : (34 : UInt8) ∉ ascii "  ")
    rw [hskip]
    exact after_self _ _ (List.cons_ne_nil _ _)
  have hspan : jsonValueSpan (stringLine name s) name = some (32 :: 34 :: (s ++ 34 :: ascii ",")) := by
    rw [jsonValueSpan, hstart, Option.bind_some, after_colon]
    simp [quoted]
  have hblank : (32 :: 34 :: (s ++ 34 :: ascii ",")).dropWhile (fun c => c = 32 || c = 9) =
      34 :: (s ++ 34 :: ascii ",") := rfl
  rw [quantAutoJsonString, hspan, Option.bind_some, hblank]
  exact congrArg (Option.map quantAutoJsonUnescape) (h.untilQuote_close (ascii ","))

end Escaped

end LibEmbedding
