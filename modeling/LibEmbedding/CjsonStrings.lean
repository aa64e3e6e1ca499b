import LibEmbedding.CjsonBounds

/-!
# Strings and white space of a cJSON text

What `print_string_ptr` writes is what `parse_string` reads, byte for byte, and white space before
a token is skipped.
-/

namespace LibEmbedding

open Foundation

namespace JsonText

-- ---------------------------------------------------------------------------
-- Where a buffer stands
-- ---------------------------------------------------------------------------

/-- A buffer between what has been read and what has not. -/
def At (before rest : Bytes) (depth : Nat) : ParseBuffer := ⟨before ++ rest, before.length, depth⟩

section At

variable {before rest : Bytes} {depth : Nat}

@[simp] theorem rest_at : (At before rest depth).rest = rest := by
  simp [At, ParseBuffer.rest]

@[simp] theorem depth_at : (At before rest depth).depth = depth := rfl

@[simp] theorem peek_at : (At before rest depth).peek = rest.head? := by
  simp [At, ParseBuffer.peek, List.getElem?_append_right, List.head?_eq_getElem?]

@[simp] theorem canAccessAtIndex_at (i : Nat) :
    (At before rest depth).canAccessAtIndex i = decide (i < rest.length) := by
  simp [At, ParseBuffer.canAccessAtIndex, ParseBuffer.length]

theorem advance_at (text : Bytes) :
    (At before (text ++ rest) depth).advance text.length = At (before ++ text) rest depth := by
  simp [At, ParseBuffer.advance]

@[simp] theorem advance_at_cons (c : UInt8) :
    (At before (c :: rest) depth).advance 1 = At (before ++ [c]) rest depth := advance_at [c]

@[simp] theorem stepBack_at (c : UInt8) :
    (At (before ++ [c]) rest depth).stepBack = At before (c :: rest) depth := by
  simp [At, ParseBuffer.stepBack]

@[simp] theorem close_at (c : UInt8) :
    (At before (c :: rest) (depth + 1)).close = At (before ++ [c]) rest depth := by
  simp [At, ParseBuffer.close]

@[simp] theorem readByte_at (c : UInt8) :
    readByte (At before (c :: rest) depth).content (At before (c :: rest) depth).offset =
      .ok c := by
  simp [At, readByte]

theorem startsWith_at (literal : Bytes) :
    (At before rest depth).startsWith literal = decide (literal <+: rest) := by
  rw [ParseBuffer.startsWith]
  congr 1
  rw [rest_at, List.prefix_iff_eq_take, eq_comm (a := literal), eq_iff_iff, and_iff_right_iff_imp]
  intro h
  have hlength := congrArg List.length h
  simp only [List.length_take] at hlength
  simp only [At, ParseBuffer.length, List.length_append]
  omega

/-- White space up to a byte that is none. -/
theorem skipWhitespace_at {white : Bytes} (hwhite : ∀ c ∈ white, c ≤ 32) (hc : 32 < c) :
    (At before (white ++ c :: rest) depth).skipWhitespace =
      At (before ++ white) (c :: rest) depth := by
  have htake : (white ++ c :: rest).takeWhile (· ≤ 32) = white := by
    rw [List.takeWhile_append_of_pos (by simpa using hwhite),
      List.takeWhile_cons_of_neg (by simpa using hc), List.append_nil]
  simp only [ParseBuffer.skipWhitespace, canAccessAtIndex_at, rest_at, htake]
  rw [if_pos (by simp), advance_at, if_neg]
  simp [At, ParseBuffer.length]

theorem skipWhitespace_at_cons (hc : 32 < c) :
    (At before (c :: rest) depth).skipWhitespace = At before (c :: rest) depth := by
  have h : (At before ([] ++ c :: rest) depth).skipWhitespace =
      At (before ++ []) (c :: rest) depth :=
    skipWhitespace_at (by simp) hc
  simpa using h

end At

-- ---------------------------------------------------------------------------
-- Escapes
-- ---------------------------------------------------------------------------

theorem hexValue_hexDigit (h : n < 16) : hexValue (hexDigit n) = some n := by
  interval_cases n <;> decide

theorem hexDigit_plain (h : n < 16) : hexDigit n ≠ 34 ∧ hexDigit n ≠ 92 := by
  interval_cases n <;> decide

/-- How a byte is written: as it is, as a letter, or as a number below 32. -/
theorem escapeByte_cases (c : UInt8) :
    (escapeByte c = [c] ∧ c ≠ 34 ∧ c ≠ 92) ∨
      (∃ e, escapeByte c = [92, e] ∧ unescape e = some c) ∨
      (escapeByte c = [92, 117, 48, 48, hexDigit (c.toNat / 16), hexDigit (c.toNat % 16)] ∧
        c.toNat < 32) := by
  unfold escapeByte
  split
  · rename_i hplain
    exact .inl ⟨rfl, hplain.2⟩
  rename_i hspecial
  split
  · rename_i hc
    exact .inr (.inl ⟨92, rfl, by rw [hc]; rfl⟩)
  split
  · rename_i hc
    exact .inr (.inl ⟨34, rfl, by rw [hc]; rfl⟩)
  split
  · rename_i hc
    exact .inr (.inl ⟨98, rfl, by rw [hc]; rfl⟩)
  split
  · rename_i hc
    exact .inr (.inl ⟨102, rfl, by rw [hc]; rfl⟩)
  split
  · rename_i hc
    exact .inr (.inl ⟨110, rfl, by rw [hc]; rfl⟩)
  split
  · rename_i hc
    exact .inr (.inl ⟨114, rfl, by rw [hc]; rfl⟩)
  split
  · rename_i hc
    exact .inr (.inl ⟨116, rfl, by rw [hc]; rfl⟩)
  · refine .inr (.inr ⟨rfl, ?_⟩)
    by_contra hlarge
    exact hspecial ⟨UInt8.lt_iff_toNat_lt.mpr (Nat.not_lt.mp hlarge), by assumption, by assumption⟩

/-- A plain byte, or a pair that begins with a backslash, before the rest of a literal. -/
theorem scanString_plain (h : c ≠ 34 ∧ c ≠ 92) (rest : Bytes) :
    scanString (c :: rest) = (scanString rest).map fun (n, skipped) => (n + 1, skipped) := by
  rw [scanString_cons, if_neg h.1, if_neg h.2]

theorem scanString_pair (e : UInt8) (rest : Bytes) :
    scanString (92 :: e :: rest) =
      (scanString rest).map fun (n, skipped) => (n + 2, skipped + 1) := by
  rw [scanString_cons]
  simp

/-- The closing quote of an escaped text, and a bound for what the loop has skipped. -/
theorem scanString_escaped (s tail : Bytes) :
    ∃ skipped, scanString (s.flatMap escapeByte ++ 34 :: tail) =
      some ((s.flatMap escapeByte).length, skipped) ∧
        s.length + skipped ≤ (s.flatMap escapeByte).length := by
  induction s with
  | nil => exact ⟨0, by simp [scanString_cons], by simp⟩
  | cons c s ih =>
    obtain ⟨skipped, hscan, hle⟩ := ih
    simp only [List.flatMap_cons, List.append_assoc]
    obtain ⟨hc, hplain⟩ | ⟨e, hc, -⟩ | ⟨hc, hsmall⟩ := escapeByte_cases c
    · rw [hc, List.singleton_append, scanString_plain hplain, hscan]
      refine ⟨skipped, by simp, ?_⟩
      simp only [List.length_cons, List.length_append, List.length_nil]
      omega
    · rw [hc]
      simp only [List.cons_append, List.nil_append, scanString_pair, hscan]
      refine ⟨skipped + 1, by simp, ?_⟩
      simp only [List.length_cons]
      omega
    · rw [hc]
      have hhigh : c.toNat / 16 < 16 := by omega
      have hlow : c.toNat % 16 < 16 := by omega
      simp only [List.cons_append, List.nil_append, scanString_pair,
        scanString_plain (c := 48) (by decide), scanString_plain (hexDigit_plain hhigh),
        scanString_plain (hexDigit_plain hlow), hscan]
      refine ⟨skipped + 1, by simp, ?_⟩
      simp only [List.length_cons]
      omega

-- ---------------------------------------------------------------------------
-- Decoding
-- ---------------------------------------------------------------------------

theorem readByte_append (before : Bytes) {rest : Bytes} {i : Nat} (hc : rest[i]? = some c) :
    readByte (before ++ rest) (before.length + i) = .ok c := by
  simp [readByte, List.getElem?_append_right, hc]

theorem readByte_start (before : Bytes) (c : UInt8) (rest : Bytes) :
    readByte (before ++ c :: rest) before.length = .ok c :=
  readByte_append before (i := 0) rfl

/-- The escape of a control character. -/
theorem utf16LiteralToUtf8_escaped (before tail : Bytes) (hc : c.toNat < 32)
    (hend : before.length + 6 ≤ inputEnd) :
    utf16LiteralToUtf8 (before ++ ([92, 117, 48, 48, hexDigit (c.toNat / 16),
      hexDigit (c.toNat % 16)] ++ tail)) before.length inputEnd = .ok (some (6, [c])) := by
  have hhex : parseHex4 (before ++ ([92, 117, 48, 48, hexDigit (c.toNat / 16),
      hexDigit (c.toNat % 16)] ++ tail)) (before.length + 2) = .ok c.toNat := by
    have hzero : hexValue 48 = some 0 := rfl
    have hhigh : hexValue (hexDigit (c.toNat / 16)) = some (c.toNat / 16) :=
      hexValue_hexDigit (by omega)
    have hlow : hexValue (hexDigit (c.toNat % 16)) = some (c.toNat % 16) :=
      hexValue_hexDigit (by omega)
    simp only [parseHex4, parseHex, Nat.add_assoc, Nat.reduceAdd, List.cons_append,
      List.nil_append]
    rw [readByte_append before (c := 48) rfl, readByte_append before (c := 48) rfl,
      readByte_append before (c := hexDigit (c.toNat / 16)) rfl,
      readByte_append before (c := hexDigit (c.toNat % 16)) rfl]
    simp only [ok_bind, hzero, hhigh, hlow]
    congr 1
    omega
  have hsmall : ∀ n < 32, n &&& 0x7F = n := by decide
  have hencode : encodeUtf8 c.toNat = some [c] := by
    rw [encodeUtf8, if_pos (by omega), hsmall _ hc, UInt8.ofNat_toNat]
  unfold utf16LiteralToUtf8
  rw [if_neg (by omega), hhex]
  simp only [ok_bind, hencode]
  rw [if_neg (by omega), if_neg (by omega)]
  rfl

/-- The loop of `parse_string` over an escaped text. -/
theorem decodeString_escaped (before s tail output : Bytes) (inputEnd room fuel : Nat)
    (hend : inputEnd = before.length + (s.flatMap escapeByte).length)
    (hroom : output.length + s.length ≤ room) (hfuel : (s.flatMap escapeByte).length < fuel) :
    decodeString (before ++ (s.flatMap escapeByte ++ tail)) inputEnd room fuel before.length
      output = .ok (.ok (output ++ s)) := by
  induction s generalizing before output fuel with
  | nil =>
    obtain ⟨fuel, rfl⟩ := Nat.exists_eq_succ_of_ne_zero (Nat.ne_of_gt hfuel)
    rw [decodeString, if_neg (by simp [hend]), List.append_nil]
  | cons c s ih =>
    obtain ⟨fuel, rfl⟩ := Nat.exists_eq_succ_of_ne_zero (Nat.ne_of_gt (Nat.zero_lt_of_lt hfuel))
    simp only [List.flatMap_cons, List.append_assoc, List.length_append] at hend hfuel ⊢
    have hpush {bytes : Bytes} (hbytes : bytes = [c]) : push room output bytes =
        .ok (output ++ [c]) := by
      subst hbytes
      apply push_ok
      simp only [List.length_cons, List.length_nil] at hroom ⊢
      omega
    -- What is left after the escape of `c`.
    have hrest (text : Bytes) (htext : escapeByte c = text) (hne : 0 < text.length) :
        decodeString (before ++ (text ++ (s.flatMap escapeByte ++ tail))) inputEnd room fuel
          (before.length + text.length) (output ++ [c]) = .ok (.ok (output ++ c :: s)) := by
      have h := ih (before ++ text) (output ++ [c]) fuel
        (by simp only [List.length_append, hend, htext]; omega)
        (by simp only [List.length_append, List.length_cons, List.length_nil] at hroom ⊢; omega)
        (by rw [htext] at hfuel; omega)
      simpa using h
    have hlt (text : Bytes) (htext : escapeByte c = text) (hne : 0 < text.length) :
        before.length < inputEnd := by
      rw [htext] at hend
      omega
    rw [decodeString]
    obtain ⟨hc, hplain⟩ | ⟨e, hc, hletter⟩ | ⟨hc, hsmall⟩ := escapeByte_cases c
    · rw [if_pos (hlt [c] hc Nat.one_pos), hc, List.singleton_append, readByte_start]
      simp only [ok_bind]
      rw [if_pos hplain.2, hpush rfl]
      exact hrest [c] hc Nat.one_pos
    · have hshort : ¬inputEnd - before.length < 1 := by
        have h := hlt _ hc Nat.two_pos
        omega
      rw [if_pos (hlt _ hc Nat.two_pos), hc, List.cons_append, readByte_start]
      simp only [ok_bind]
      rw [if_neg (by simp), if_neg hshort, readByte_append before rfl]
      simp only [ok_bind, hletter]
      rw [hpush rfl]
      exact hrest [92, e] hc Nat.two_pos
    · have hlong : before.length + 6 ≤ inputEnd := by
        rw [hc] at hend
        simp only [List.length_cons, List.length_nil] at hend
        omega
      rw [if_pos (by omega), hc, List.cons_append, readByte_start]
      simp only [ok_bind]
      rw [if_neg (by simp), if_neg (by omega), readByte_append before rfl]
      simp only [ok_bind]
      have hletter : unescape 117 = none := rfl
      have hutf := utf16LiteralToUtf8_escaped before (s.flatMap escapeByte ++ tail) hsmall hlong
      rw [List.cons_append] at hutf
      rw [hletter]
      dsimp only
      rw [if_neg (by decide), hutf]
      simp only [ok_bind]
      rw [hpush rfl]
      exact hrest _ hc (by simp)

theorem cstr_legible {s : Bytes} (hs : Legible s) : cstr s = s := by
  rw [cstr, List.takeWhile_eq_self_iff]
  exact fun c hc => decide_eq_true fun hzero => hs (hzero ▸ hc)

theorem cstr_nul {s : Bytes} (hs : Legible s) : cstr (s ++ [0]) = s := by
  rw [cstr, List.takeWhile_append_of_pos, List.takeWhile_cons_of_neg (by simp), List.append_nil]
  intro c hc
  exact decide_eq_true fun hzero => hs (hzero ▸ hc)

/-- `parse_string` reads what `print_string_ptr` has written. -/
theorem parseString_printed (before s tail : Bytes) (depth : Nat) :
    parseString (At before (printString s ++ tail) depth) =
      .ok (some (cstr s), At (before ++ printString s) tail depth) := by
  obtain ⟨skipped, hscan, hle⟩ := scanString_escaped (cstr s) tail
  have hlegible := legible_cstr s
  generalize hs : cstr s = t at *
  have htext : printString s ++ tail = 34 :: (t.flatMap escapeByte ++ 34 :: tail) := by
    simp [printString, hs]
  have hdrop : (At before (34 :: (t.flatMap escapeByte ++ 34 :: tail)) depth).content.drop
      (before.length + 1) = t.flatMap escapeByte ++ 34 :: tail := by
    simp [At, List.drop_append]
  have hdecode := decodeString_escaped (before ++ [34]) t (34 :: tail) []
    (before.length + 1 + (t.flatMap escapeByte).length)
    (before.length + 1 + (t.flatMap escapeByte).length - before.length - skipped + 1)
    ((t.flatMap escapeByte).length + 1) (by simp only [List.length_append, List.length_singleton])
    (by simp only [List.length_nil]; omega) (by omega)
  have hoffset (rest : Bytes) : (At before rest depth).offset = before.length := rfl
  have hcontent : (At before (34 :: (t.flatMap escapeByte ++ 34 :: tail)) depth).content =
    before ++ [34] ++ (t.flatMap escapeByte ++ 34 :: tail) := by simp [At]
  rw [htext, parseString, readByte_at]
  simp only [ok_bind, hoffset, hdrop]
  rw [if_neg (by simp)]
  simp only [hscan, hcontent]
  simp only [List.length_append, List.length_singleton] at hdecode
  rw [hdecode]
  simp only [ok_bind, List.nil_append]
  rw [push_ok (by simp only [List.length_singleton]; omega)]
  simp only [ok_bind, cstr_nul hlegible]
  simp [At, printString, hs, pure, Except.pure]
  omega

end JsonText

end LibEmbedding
