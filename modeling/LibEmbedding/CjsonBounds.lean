import LibEmbedding.CjsonText

/-!
# The parser stays within its buffers

Every read of `cJSON_ParseWithLength` is inside the text and every write of `parse_string` inside
the memory it has allocated, whatever the text is: the loop that decodes an escape can come to
stand in the middle of what the first loop took for one, and its output still fits.
-/

namespace LibEmbedding

open Foundation

namespace JsonText

-- ---------------------------------------------------------------------------
-- The literal
-- ---------------------------------------------------------------------------

theorem scanString_cons (c : UInt8) (rest : Bytes) :
    scanString (c :: rest) =
      if c = 34 then some (0, 0)
      else if c = 92 then (scanString (rest.drop 1)).map fun (n, skipped) => (n + 2, skipped + 1)
      else (scanString rest).map fun (n, skipped) => (n + 1, skipped) := by
  rw [scanString.eq_def]
  cases rest with
  | nil => simp [scanString]
  | cons d rest => rfl

/-- The loop stops at a quote, and has skipped every other byte at most. -/
theorem scanString_spec {s : Bytes} (h : scanString s = some (n, skipped)) :
    s[n]? = some 34 ∧ 2 * skipped ≤ n := by
  induction hs : s.length using Nat.strong_induction_on generalizing s n skipped with
  | _ length ih =>
    cases s with
    | nil => simp [scanString] at h
    | cons c rest =>
      rw [scanString_cons] at h
      simp only [List.length_cons] at hs
      split at h
      · rename_i hquote
        simp only [Option.some.injEq, Prod.mk.injEq] at h
        obtain ⟨rfl, rfl⟩ := h
        simp [hquote]
      · split at h
        · simp only [Option.map_eq_some_iff, Prod.mk.injEq, Prod.exists] at h
          obtain ⟨m, k, hrest, rfl, rfl⟩ := h
          obtain ⟨hat, hhalf⟩ := ih _ (by rw [List.length_drop]; omega) hrest rfl
          rw [List.getElem?_drop, Nat.add_comm] at hat
          exact ⟨by rwa [List.getElem?_cons_succ], by omega⟩
        · simp only [Option.map_eq_some_iff, Prod.mk.injEq, Prod.exists] at h
          obtain ⟨m, k, hrest, rfl, rfl⟩ := h
          obtain ⟨hat, hhalf⟩ := ih _ (by omega) hrest rfl
          exact ⟨by rwa [List.getElem?_cons_succ], by omega⟩

/-- The first loop took `p` for the first byte of a character or an escape, and has counted `r`
bytes of output from there to the end of the literal. -/
def Begins (content : Bytes) (inputEnd p r : Nat) : Prop :=
  ∃ n skipped, scanString (content.drop p) = some (n, skipped) ∧ p + n = inputEnd ∧ r + skipped = n

/-- So it did, or it took `p` for the second byte of an escape. -/
def Within (content : Bytes) (inputEnd p r : Nat) : Prop :=
  Begins content inputEnd p r ∨ ∃ r', Begins content inputEnd (p + 1) r' ∧ r = r' + 1

theorem Begins.end_eq (h : Begins content inputEnd p r) : content[inputEnd]? = some 34 := by
  obtain ⟨n, skipped, hscan, rfl, -⟩ := h
  have hat := (scanString_spec hscan).1
  rwa [List.getElem?_drop] at hat

theorem Within.end_eq (h : Within content inputEnd p r) : content[inputEnd]? = some 34 := by
  rcases h with h | ⟨r', h, -⟩
  · exact h.end_eq
  · exact h.end_eq

theorem Within.end_lt (h : Within content inputEnd p r) : inputEnd < content.length :=
  (List.getElem?_eq_some_iff.mp h.end_eq).1

theorem drop_eq_cons {l : List α} (h : l[i]? = some a) : l.drop i = a :: l.drop (i + 1) := by
  obtain ⟨hi, rfl⟩ := List.getElem?_eq_some_iff.mp h
  exact List.drop_eq_getElem_cons hi

theorem Begins.next (h : Begins content inputEnd p r) (hp : p < inputEnd)
    (hc : content[p]? = some c) :
    ∃ r', Begins content inputEnd (if c = 92 then p + 2 else p + 1) r' ∧ r = r' + 1 := by
  obtain ⟨n, skipped, hscan, hend, hr⟩ := h
  rw [drop_eq_cons hc, scanString_cons] at hscan
  split at hscan
  · simp only [Option.some.injEq, Prod.mk.injEq] at hscan
    omega
  · split at hscan
    all_goals
      rename_i hescape
      simp only [Option.map_eq_some_iff, Prod.mk.injEq, Prod.exists, List.drop_drop] at hscan
      obtain ⟨m, k, hrest, rfl, rfl⟩ := hscan
      have hhalf := (scanString_spec hrest).2
    · rw [if_pos hescape]
      exact ⟨m - k, ⟨m, k, hrest, by omega, by omega⟩, by omega⟩
    · rw [if_neg hescape]
      exact ⟨m - k, ⟨m, k, hrest, by omega, by omega⟩, by omega⟩

/-- A byte that begins no escape is one byte of output. -/
theorem Within.next (h : Within content inputEnd p r) (hp : p < inputEnd)
    (hc : content[p]? = some c) (hplain : c ≠ 92) :
    ∃ r', Within content inputEnd (p + 1) r' ∧ r = r' + 1 := by
  rcases h with h | ⟨r', h, hr⟩
  · obtain ⟨r', h', hr⟩ := h.next hp hc
    rw [if_neg hplain] at h'
    exact ⟨r', .inl h', hr⟩
  · exact ⟨r', .inl h, hr⟩

theorem Within.pos (h : Within content inputEnd p r) (hp : p < inputEnd) : 0 < r := by
  rcases h with h | ⟨r', -, hr⟩
  · have hlt := hp.trans (Within.end_lt (.inl h))
    obtain ⟨r', -, hr⟩ := h.next hp (List.getElem?_eq_getElem hlt)
    omega
  · omega

/-- Two bytes are at least one byte of output, wherever they begin. -/
theorem Within.two (h : Within content inputEnd p r) (hp : p + 2 ≤ inputEnd) :
    ∃ r', Within content inputEnd (p + 2) r' ∧ r' + 1 ≤ r := by
  have hend := h.end_lt
  have one {q r} (h : Begins content inputEnd q r) (hq : q < inputEnd) :
      ∃ r', Within content inputEnd (q + 1) r' ∧ r' ≤ r := by
    obtain ⟨r', h', hr⟩ := h.next hq (List.getElem?_eq_getElem (by omega))
    split at h'
    · exact ⟨r' + 1, .inr ⟨r', h', rfl⟩, by omega⟩
    · exact ⟨r', .inl h', by omega⟩
  rcases h with h | ⟨r', h, hr⟩
  · obtain ⟨r', h', hr⟩ := h.next (by omega) (List.getElem?_eq_getElem (by omega))
    split at h'
    · exact ⟨r', .inl h', by omega⟩
    · obtain ⟨r'', h'', hr'⟩ := one h' (by omega)
      exact ⟨r'', h'', by omega⟩
  · obtain ⟨r'', h'', hr'⟩ := one h (by omega)
    exact ⟨r'', h'', by omega⟩

theorem Within.skip (h : Within content inputEnd p r) (k : Nat) (hp : p + 2 * k ≤ inputEnd) :
    ∃ r', Within content inputEnd (p + 2 * k) r' ∧ r' + k ≤ r := by
  induction k with
  | zero => exact ⟨r, h, le_rfl⟩
  | succ k ih =>
    obtain ⟨r', h', hr⟩ := ih (by omega)
    obtain ⟨r'', h'', hr'⟩ := h'.two (by omega)
    exact ⟨r'', h'', by omega⟩

-- ---------------------------------------------------------------------------
-- Escapes
-- ---------------------------------------------------------------------------

theorem readByte_lt {content : Bytes} (hi : i < content.length) :
    readByte content i = .ok (content.get ⟨i, hi⟩) := by
  simp [readByte, List.getElem?_eq_getElem hi]

theorem hexValue_lt (h : hexValue c = some d) : d < 16 := by
  unfold hexValue at h
  simp only [UInt8.le_iff_toNat_le] at h
  split at h
  · rename_i hdigit
    cases h
    have hhigh : c.toNat ≤ 57 := hdigit.2
    omega
  · split at h
    · rename_i hupper
      cases h
      have hhigh : c.toNat ≤ 70 := hupper.2
      omega
    · split at h
      · rename_i hlower
        cases h
        have hhigh : c.toNat ≤ 102 := hlower.2
        omega
      · cases h

/-- `n` digits can be read, and make a number of `n` digits behind `h`. -/
theorem parseHex_ok {content : Bytes} (n h : Nat) (hp : p + n ≤ content.length) :
    ∃ v, parseHex content n p h = .ok v ∧ v < 16 ^ n * (h + 1) := by
  induction n generalizing p h with
  | zero => exact ⟨h, rfl, by omega⟩
  | succ n ih =>
    rw [parseHex, readByte_lt (by omega)]
    simp only [bind, Except.bind]
    split
    · rename_i d hd
      obtain ⟨v, hv, hlt⟩ := ih (p := p + 1) (h * 16 + d) (by omega)
      refine ⟨v, hv, hlt.trans_le ?_⟩
      have hdigit := hexValue_lt hd
      calc 16 ^ n * (h * 16 + d + 1) ≤ 16 ^ n * (16 * (h + 1)) := by gcongr; omega
        _ = 16 ^ (n + 1) * (h + 1) := by ring
    · exact ⟨0, rfl, by positivity⟩

theorem parseHex4_ok (content : Bytes) (hp : p + 4 ≤ content.length) :
    ∃ v, parseHex4 content p = .ok v ∧ v < 0x10000 := parseHex_ok 4 0 hp

theorem encodeUtf8_length (h : encodeUtf8 codepoint = some bytes) :
    bytes.length ≤ 4 ∧ (codepoint < 0x10000 → bytes.length ≤ 3) := by
  unfold encodeUtf8 at h
  split at h
  · cases h
    simp
  · split at h
    · cases h
      simp
    · split at h
      · cases h
        simp
      · split at h
        · cases h
          rename_i hlarge _
          exact ⟨le_rfl, fun hsmall => absurd hsmall hlarge⟩
        · cases h

/-- A literal that is decoded lies before the end, and is at least twice as long as what it
stands for. -/
theorem utf16LiteralToUtf8_ok {content : Bytes} (first : Nat) (hend : inputEnd < content.length)
    (hfirst : first ≤ inputEnd) :
    utf16LiteralToUtf8 content first inputEnd = .ok none ∨
      ∃ k bytes, utf16LiteralToUtf8 content first inputEnd = .ok (some (2 * k, bytes)) ∧
        first + 2 * k ≤ inputEnd ∧ bytes.length ≤ k ∧ 0 < k := by
  unfold utf16LiteralToUtf8
  by_cases hshort : inputEnd - first < 6
  · exact .inl (by rw [if_pos hshort]; rfl)
  obtain ⟨firstCode, hcode, hsmall⟩ := parseHex4_ok content (p := first + 2) (by omega)
  rw [if_neg hshort, hcode]
  simp only [bind, Except.bind, pure, Except.pure]
  split
  · exact .inl rfl
  split
  · split
    · exact .inl rfl
    rw [readByte_lt (by omega)]
    dsimp only
    split
    · exact .inl rfl
    rw [readByte_lt (by omega)]
    dsimp only
    split
    · exact .inl rfl
    obtain ⟨secondCode, hsecond, -⟩ :=
      parseHex4_ok content (p := first + 6 + 2) (by omega)
    rw [hsecond]
    dsimp only
    split
    · exact .inl rfl
    cases hbytes : encodeUtf8
        (0x10000 + (((firstCode &&& 0x3FF) <<< 10) ||| (secondCode &&& 0x3FF))) with
    | none => exact .inl rfl
    | some bytes =>
      have hlength := (encodeUtf8_length hbytes).1
      exact .inr ⟨6, bytes, rfl, by omega, by omega, by omega⟩
  · cases hbytes : encodeUtf8 firstCode with
    | none => exact .inl rfl
    | some bytes =>
      exact .inr ⟨3, bytes, rfl, by omega, (encodeUtf8_length hbytes).2 hsmall, by omega⟩

-- ---------------------------------------------------------------------------
-- Strings
-- ---------------------------------------------------------------------------

/-- What `decodeString` comes to: a failure, or an output of `total` bytes at most. -/
def Decoded (total : Nat) (r : Except Stop (Except Nat Bytes)) : Prop :=
  ∃ result, r = .ok result ∧ ∀ output, result = .ok output → output.length ≤ total

theorem push_ok {room : Nat} {output bytes : Bytes} (h : output.length + bytes.length ≤ room) :
    push room output bytes = .ok (output ++ bytes) := if_pos h

theorem Decoded.step {total : Nat} {step : Except Stop Bytes}
    {next : Bytes → Except Stop (Except Nat Bytes)} (hstep : step = .ok output)
    (h : Decoded total (next output)) : Decoded total (step >>= next) := by
  subst hstep
  exact h

theorem Decoded.failed (total p : Nat) : Decoded total (.ok (.error p)) := ⟨_, rfl, by simp⟩

/-- The output of the loop has at most as many bytes as the first loop has counted. -/
theorem decodeString_ok {content : Bytes} {inputEnd : Nat} (room total : Nat) (hroom : total ≤ room)
    (hend : content[inputEnd]? = some 34) (fuel p : Nat) (output : Bytes)
    (hfuel : inputEnd < p + fuel ∧ 0 < fuel) (hout : output.length ≤ total)
    (hp : p < inputEnd → ∃ r, Within content inputEnd p r ∧ output.length + r ≤ total) :
    Decoded total (decodeString content inputEnd room fuel p output) := by
  have hlength : inputEnd < content.length := (List.getElem?_eq_some_iff.mp hend).1
  induction fuel generalizing p output with
  | zero => omega
  | succ fuel ih =>
    rw [decodeString]
    by_cases hlt : p < inputEnd
    · obtain ⟨r, hwithin, hr⟩ := hp hlt
      have hpos := hwithin.pos hlt
      have hc : content[p]? = some (content.get ⟨p, by omega⟩) :=
        List.getElem?_eq_getElem (by omega)
      have he : content[p + 1]? = some (content.get ⟨p + 1, by omega⟩) :=
        List.getElem?_eq_getElem (by omega)
      rw [if_pos hlt, readByte, hc]
      generalize content.get ⟨p, _⟩ = c at hc
      generalize content.get ⟨p + 1, _⟩ = e at he
      simp only [ok_bind]
      split
      · rename_i hplain
        obtain ⟨r', hnext, hr'⟩ := hwithin.next hlt hc hplain
        apply Decoded.step (push_ok (by simp; omega))
        apply ih
        · omega
        · simp
          omega
        · exact fun _ => ⟨r', hnext, by simp; omega⟩
      · rw [if_neg (by omega), readByte, he]
        simp only [ok_bind]
        cases hletter : unescape e with
        | some out =>
          apply Decoded.step (push_ok (by simp; omega))
          apply ih
          · omega
          · simp
            omega
          · intro hmore
            obtain ⟨r', hnext, hr'⟩ := hwithin.two (by omega)
            exact ⟨r', hnext, by simp; omega⟩
        | none =>
          dsimp only
          split
          · exact .failed total p
          · rcases utf16LiteralToUtf8_ok p hlength hlt.le with hnone | hsome
            · rw [hnone]
              exact .failed total p
            · obtain ⟨k, bytes, hsome, hk, hbytes, hkpos⟩ := hsome
              rw [hsome]
              obtain ⟨r', hnext, hr'⟩ := hwithin.skip k hk
              apply Decoded.step (push_ok (by omega))
              apply ih
              · omega
              · simp
                omega
              · exact fun _ => ⟨r', hnext, by simp; omega⟩
    · rw [if_neg hlt]
      exact ⟨_, rfl, fun _ h => by cases h; exact hout⟩

-- ---------------------------------------------------------------------------
-- Steps of the parser
-- ---------------------------------------------------------------------------

/-- The buffer further on in the same text, at the same depth. -/
structure Further (b b' : ParseBuffer) : Prop where
  content : b'.content = b.content
  depth : b'.depth = b.depth
  more : b.offset < b'.offset
  bound : b'.offset ≤ b.length

/-- A step that stays in bounds and comes to its end: it fails, or goes on with a result and a
buffer that are as they should be. -/
def InBounds (P : α → ParseBuffer → Prop) (b : ParseBuffer) (r : Except Stop (Parsed α)) : Prop :=
  ∃ x b', r = .ok (x, b') ∧ ∀ a, x = some a → Further b b' ∧ P a b'

section Steps

variable {P : α → ParseBuffer → Prop} {Q : β → ParseBuffer → Prop}

theorem InBounds.failed (b b' : ParseBuffer) : InBounds P b (.ok (none, b')) :=
  ⟨none, b', rfl, fun _ h => nomatch h⟩

theorem InBounds.done (h : Further b b') (ha : P a b') : InBounds P b (.ok (some a, b')) :=
  ⟨some a, b', rfl, fun _ heq => Option.some.inj heq ▸ ⟨h, ha⟩⟩

theorem InBounds.bind {b₀ : ParseBuffer} {r : Except Stop (Parsed α)}
    {next : Parsed α → Except Stop (Parsed β)} (h : InBounds P b r)
    (hfailed : ∀ b', InBounds Q b₀ (next (none, b')))
    (hnext : ∀ a b', Further b b' → P a b' → InBounds Q b₀ (next (some a, b'))) :
    InBounds Q b₀ (r >>= next) := by
  obtain ⟨x, b', rfl, hx⟩ := h
  cases x with
  | none => exact hfailed b'
  | some a => exact hnext a b' (hx a rfl).1 (hx a rfl).2

theorem InBounds.map {f : α → β} {b₀ : ParseBuffer} {r : Except Stop (Parsed α)}
    (h : InBounds P b r)
    (hf : ∀ a b', Further b b' → P a b' → Further b₀ b' ∧ Q (f a) b') :
    InBounds Q b₀ (do
      let (x, b) ← r
      return (x.map f, b)) := by
  refine h.bind (fun b' => .failed _ _) fun a b' hb' ha => ?_
  obtain ⟨hfurther, hok⟩ := hf a b' hb' ha
  exact .done hfurther hok

end Steps

theorem Further.trans {a b c : ParseBuffer} (h : Further a b) (h' : Further b c) : Further a c where
  content := h'.content.trans h.content
  depth := h'.depth.trans h.depth
  more := h.more.trans h'.more
  bound := by
    have hbound := h'.bound
    rwa [ParseBuffer.length, h.content] at hbound

section Buffer

variable {b : ParseBuffer}

@[simp] theorem content_skipWhitespace : b.skipWhitespace.content = b.content := by
  simp only [ParseBuffer.skipWhitespace]
  split
  · split <;> rfl
  · rfl

@[simp] theorem depth_skipWhitespace : b.skipWhitespace.depth = b.depth := by
  simp only [ParseBuffer.skipWhitespace]
  split
  · split <;> rfl
  · rfl

@[simp] theorem length_skipWhitespace : b.skipWhitespace.length = b.length := by
  simp [ParseBuffer.length]

/-- It never goes back behind where it was, and stops at a byte if there is one. -/
theorem skipWhitespace_spec (hb : b.offset ≤ b.length) :
    b.offset ≤ b.skipWhitespace.offset ∧ b.skipWhitespace.offset ≤ b.length ∧
      (b.offset < b.length → b.skipWhitespace.offset < b.length) := by
  obtain ⟨n, hn⟩ : ∃ n, (b.rest.takeWhile (· ≤ 32)).length = n := ⟨_, rfl⟩
  have hle : n ≤ b.length - b.offset := by
    have htake := (List.takeWhile_sublist (l := b.rest) (fun c => decide (c ≤ 32))).length_le
    rw [hn] at htake
    simpa [ParseBuffer.rest, ParseBuffer.length] using htake
  simp only [ParseBuffer.skipWhitespace, ParseBuffer.canAccessAtIndex, hn]
  by_cases hend : b.offset + 0 < b.length
  · rw [if_pos (by simpa using hend)]
    by_cases hall : b.offset + n = b.length
    · rw [if_pos (by exact hall)]
      simp only [ParseBuffer.advance, ParseBuffer.stepBack]
      omega
    · rw [if_neg (by exact hall)]
      simp only [ParseBuffer.advance]
      omega
  · rw [if_neg (by simpa using hend)]
    omega

@[simp] theorem length_advance (n : Nat) : (b.advance n).length = b.length := rfl
@[simp] theorem offset_advance (n : Nat) : (b.advance n).offset = b.offset + n := rfl
@[simp] theorem length_stepBack : b.stepBack.length = b.length := rfl
@[simp] theorem offset_stepBack : b.stepBack.offset = b.offset - 1 := rfl

theorem peek_lt (h : b.peek = some c) : b.offset < b.length :=
  (List.getElem?_eq_some_iff.mp h).1

theorem startsWith_le (h : b.startsWith literal = true) : b.offset + literal.length ≤ b.length := by
  rw [ParseBuffer.startsWith, decide_eq_true_eq] at h
  exact h.1

theorem Further.advance (hn : 0 < n) (h : b.offset + n ≤ b.length) : Further b (b.advance n) :=
  ⟨rfl, rfl, Nat.lt_add_of_pos_right hn, h⟩

theorem Further.skipWhitespace (h : Further a b) : Further a b.skipWhitespace := by
  have hle : b.offset ≤ b.length := by rw [ParseBuffer.length, h.content]; exact h.bound
  obtain ⟨hlow, hhigh, -⟩ := skipWhitespace_spec hle
  refine ⟨by simp [h.content], by simp [h.depth], h.more.trans_le hlow, ?_⟩
  rwa [ParseBuffer.length, h.content] at hhigh

end Buffer

theorem parseNumber_inBounds :
    InBounds (fun t _ => ∃ d, t = .number d) b (.ok (parseNumber b)) := by
  unfold parseNumber
  split
  rename_i number taken hread
  split
  · exact .failed b b
  · rename_i htaken
    have hle := strtod_taken_le (b.rest.takeWhile isNumberByte)
    rw [hread] at hle
    have hrest := (List.takeWhile_sublist (l := b.rest) isNumberByte).length_le
    simp only [ParseBuffer.rest, List.length_drop] at hle hrest
    apply InBounds.done _ ⟨number, rfl⟩
    apply Further.advance (by omega)
    simp only [ParseBuffer.length]
    omega

/-- A string without a NUL. -/
def Legible (s : Bytes) : Prop := 0 ∉ s

theorem legible_cstr (s : Bytes) : Legible (cstr s) := by
  intro h
  have hne := List.mem_takeWhile_imp h
  simp at hne

theorem parseString_inBounds {b : ParseBuffer} (hb : b.offset < b.length) :
    InBounds (fun s _ => Legible s) b (parseString b) := by
  unfold parseString
  rw [readByte_lt hb]
  simp only [ok_bind]
  split
  · exact .failed b _
  split
  · exact .failed b _
  rename_i n skipped hscan
  have hbegins : Begins b.content (b.offset + 1 + n) (b.offset + 1) (n - skipped) :=
    ⟨n, skipped, hscan, rfl, by have hhalf := (scanString_spec hscan).2; omega⟩
  have hend := hbegins.end_eq
  obtain ⟨result, hresult, hlength⟩ := decodeString_ok
    (b.offset + 1 + n - b.offset - skipped + 1) (n - skipped) (by omega) hend (n + 1)
    (b.offset + 1) [] (by omega) (by simp) fun _ => ⟨n - skipped, .inl hbegins, by simp⟩
  rw [hresult]
  simp only [ok_bind]
  cases result with
  | error p => exact .failed b _
  | ok output =>
    have hroom := hlength output rfl
    simp only
    rw [push_ok (by simp; omega)]
    apply InBounds.done _ (legible_cstr _)
    have hlt := Within.end_lt (.inl hbegins)
    exact ⟨rfl, rfl, by dsimp only; omega, hlt⟩

-- ---------------------------------------------------------------------------
-- Values
-- ---------------------------------------------------------------------------

mutual

/-- A tree that the parser can have built below `depth` others. -/
def Fits (depth : Nat) : Json → Prop
  | .string s => Legible s
  | .array items => depth < nestingLimit ∧ FitElements (depth + 1) items
  | .object members => depth < nestingLimit ∧ FitMembers (depth + 1) members
  | _ => True

def FitElements (depth : Nat) : List Json → Prop
  | [] => True
  | item :: items => Fits depth item ∧ FitElements depth items

def FitMembers (depth : Nat) : List (Bytes × Json) → Prop
  | [] => True
  | (name, item) :: members => Legible name ∧ Fits depth item ∧ FitMembers depth members

end

theorem Further.close {b b' : ParseBuffer} (h : Further { b with depth := b.depth + 1 } b')
    (hb : b'.offset < b'.length) : Further b b'.close := by
  refine ⟨h.content, ?_, ?_, ?_⟩
  · have hdepth := h.depth
    simp only [ParseBuffer.close] at hdepth ⊢
    omega
  · have hmore := h.more
    simp only [ParseBuffer.close] at hmore ⊢
    omega
  · rw [ParseBuffer.length, h.content] at hb
    exact hb

/-- The step back at the beginning of a loop is made up for by what the loop reads. -/
theorem Further.stepBack {b b₁ b₂ : ParseBuffer} (h : Further b b₁)
    (h' : Further b₁.stepBack b₂) : Further b b₂ where
  content := h'.content.trans h.content
  depth := h'.depth.trans h.depth
  more := by
    have hmore := h.more
    have hmore' := h'.more
    simp only [offset_stepBack] at hmore'
    omega
  bound := by
    have hbound := h'.bound
    rwa [length_stepBack, ParseBuffer.length, h.content] at hbound

/-- What the loops of `parse_array` and `parse_object` come to: they stop before the end. -/
def Loops (P : Nat → α → Prop) (fuel : Nat) (loop : ParseBuffer → Except Stop (Parsed α)) : Prop :=
  ∀ b : ParseBuffer, b.offset < b.length → 2 * (b.length - b.offset) ≤ fuel →
    InBounds (fun items b' => P b.depth items ∧ b'.offset < b'.length) b (loop b)

section Loops

variable {b : ParseBuffer} {fuel : Nat}

/-- What is behind the opening bracket. -/
theorem Further.enter (hb : b.offset < b.length) :
    Further { b with depth := b.depth + 1 }
      (({ b with depth := b.depth + 1 } : ParseBuffer).advance 1).skipWhitespace :=
  (Further.advance (b := { b with depth := b.depth + 1 }) Nat.one_pos hb).skipWhitespace

/-- A loop after the opening bracket and the bracket after the loop. -/
theorem Loops.close {P : Nat → α → Prop} {Q : β → ParseBuffer → Prop} (f : α → β)
    {loop : ParseBuffer → Except Stop (Parsed α)} {next : Parsed α → Except Stop (Parsed β)}
    (h : Loops P fuel loop) {b₁ : ParseBuffer}
    (hb : Further { b with depth := b.depth + 1 } b₁) (hlt : b₁.offset < b₁.length)
    (hfuel : 2 * (b.length - b.offset) ≤ fuel)
    (hfailed : ∀ b', next (none, b') = .ok (none, b'))
    (hdone : ∀ items b', next (some items, b') = .ok (some (f items), b'.close))
    (hf : ∀ items b', P (b.depth + 1) items → Q (f items) b') :
    InBounds Q b (loop b₁.stepBack >>= next) := by
  have hlength : b₁.length = b.length := congrArg List.length hb.content
  have hmore : b.offset < b₁.offset := hb.more
  have hdepth : b₁.stepBack.depth = b.depth + 1 := hb.depth
  apply (h b₁.stepBack (by simp; omega) (by simp; omega)).bind
  · intro b'
    rw [hfailed]
    exact .failed b b'
  · rintro items b₂ hfurther ⟨hitems, hend⟩
    rw [hdepth] at hitems
    rw [hdone]
    exact .done ((hb.stepBack hfurther).close hend) (hf items _ hitems)

theorem parseArray_inBounds {elements : ParseBuffer → Except Stop (Parsed (List Json))}
    (h : Loops FitElements fuel elements) (hb : b.offset < b.length)
    (hfuel : 2 * (b.length - b.offset) ≤ fuel) :
    InBounds (fun t _ => Fits b.depth t) b (parseArray elements b) := by
  unfold parseArray
  split
  · exact .failed b b
  rename_i hdepth
  dsimp only
  rw [readByte_lt (by exact hb)]
  simp only [ok_bind]
  split
  · exact .failed b _
  have hfurther := Further.enter hb
  generalize (({ b with depth := b.depth + 1 } : ParseBuffer).advance 1).skipWhitespace = b₁
    at hfurther
  split
  · exact .failed b _
  rename_i c hpeek
  split
  · exact .done (hfurther.close (peek_lt hpeek)) ⟨by omega, trivial⟩
  · exact h.close Json.array hfurther (peek_lt hpeek) hfuel (fun _ => rfl) (fun _ _ => rfl)
      fun items b' hitems => ⟨by omega, hitems⟩

theorem parseObject_inBounds {members : ParseBuffer → Except Stop (Parsed (List (Bytes × Json)))}
    (h : Loops FitMembers fuel members) (hb : b.offset < b.length)
    (hfuel : 2 * (b.length - b.offset) ≤ fuel) :
    InBounds (fun t _ => Fits b.depth t) b (parseObject members b) := by
  unfold parseObject
  split
  · exact .failed b b
  rename_i hdepth
  dsimp only
  split
  · exact .failed b _
  have hfurther := Further.enter hb
  generalize (({ b with depth := b.depth + 1 } : ParseBuffer).advance 1).skipWhitespace = b₁
    at hfurther
  split
  · exact .failed b _
  rename_i c hpeek
  split
  · exact .done (hfurther.close (peek_lt hpeek)) ⟨by omega, trivial⟩
  · exact h.close Json.object hfurther (peek_lt hpeek) hfuel (fun _ => rfl) (fun _ _ => rfl)
      fun items b' hitems => ⟨by omega, hitems⟩

/-- The name of a member, up to the colon. -/
theorem parseName_inBounds :
    InBounds (fun name b' => Legible name ∧ b'.offset < b'.length) b (parseName b) := by
  unfold parseName
  split
  · exact .failed b b
  rename_i hcan
  have hlt : b.offset + 1 < b.length := by
    simpa [ParseBuffer.canAccessAtIndex] using hcan
  have hskip := (Further.advance Nat.one_pos hlt.le).skipWhitespace
  have hstart := (skipWhitespace_spec (b := b.advance 1) hlt.le).2.2 hlt
  refine (parseString_inBounds (by simpa using hstart)).bind (fun b' => .failed b b') ?_
  intro name b₁ hfurther hname
  dsimp only
  split
  · exact .failed b _
  · rename_i hcolon
    have hpeek : b₁.skipWhitespace.peek = some 58 := by simpa using hcolon
    exact .done (hskip.trans hfurther.skipWhitespace) ⟨hname, peek_lt hpeek⟩

theorem parseValue_inBounds (hfuel : 2 * (b.length - b.offset) ≤ fuel)
    (helements : Loops FitElements fuel (parseElements fuel))
    (hmembers : Loops FitMembers fuel (parseMembers fuel)) :
    InBounds (fun t _ => Fits b.depth t) b (parseValue (fuel + 1) b) := by
  rw [parseValue]
  split
  · rename_i hnull
    exact .done (.advance (by decide) (startsWith_le hnull)) trivial
  split
  · rename_i hfalse
    exact .done (.advance (by decide) (startsWith_le hfalse)) trivial
  split
  · rename_i htrue
    exact .done (.advance (by decide) (startsWith_le htrue)) trivial
  split
  · exact .failed b b
  rename_i c hpeek
  have hlt := peek_lt hpeek
  split
  · exact (parseString_inBounds hlt).map fun s b' hfurther hs => ⟨hfurther, hs⟩
  split
  · obtain ⟨x, b', hread, hx⟩ := parseNumber_inBounds (b := b)
    refine ⟨x, b', hread, fun t ht => ?_⟩
    obtain ⟨hfurther, d, rfl⟩ := hx t ht
    exact ⟨hfurther, trivial⟩
  split
  · exact parseArray_inBounds helements hlt hfuel
  split
  · exact parseObject_inBounds hmembers hlt hfuel
  · exact .failed b b

/-- What is behind an element or a member. -/
theorem Loops.next {P : Nat → List α → Prop} {loop : ParseBuffer → Except Stop (Parsed (List α))}
    {item : α} {close : UInt8} {b' : ParseBuffer} (h : Loops P fuel loop) (hb : Further b b')
    (hfuel : 2 * (b.length - b.offset) ≤ fuel + 1) (hone : P b.depth [item])
    (hcons : ∀ items, P b.depth items → P b.depth (item :: items)) :
    InBounds (fun items b' => P b.depth items ∧ b'.offset < b'.length) b
      (if b'.peek = some 44 then do
        let (items, b) ← loop b'
        return (items.map (item :: ·), b)
      else if b'.peek = some close then return (some [item], b')
      else return (none, b')) := by
  have hlength : b'.length = b.length := congrArg List.length hb.content
  have hmore := hb.more
  split
  · rename_i hcomma
    apply (h b' (peek_lt hcomma) (by omega)).map
    rintro items b'' hfurther ⟨hitems, hend⟩
    rw [hb.depth] at hitems
    exact ⟨hb.trans hfurther, hcons items hitems, hend⟩
  split
  · rename_i hclose
    exact .done hb ⟨hone, peek_lt hclose⟩
  · exact .failed b _

/-- What `parseValue` needs of its fuel. -/
def Values (fuel : Nat) : Prop :=
  ∀ b : ParseBuffer, b.offset ≤ b.length → 2 * (b.length - b.offset) + 1 ≤ fuel →
    InBounds (fun t _ => Fits b.depth t) b (parseValue fuel b)

theorem Values.element (h : Values fuel) {b₁ : ParseBuffer} (hb : Further b b₁)
    (hfuel : 2 * (b.length - b.offset) ≤ fuel + 1) :
    InBounds (fun t _ => Fits b.depth t) b₁ (parseValue fuel b₁) := by
  have hlength : b₁.length = b.length := congrArg List.length hb.content
  have hmore := hb.more
  have hbound := hb.bound
  have hvalue := h b₁ (by omega) (by omega)
  rwa [hb.depth] at hvalue

theorem parseElements_loops (hvalue : Values fuel)
    (hmore : Loops FitElements fuel (parseElements fuel)) :
    Loops FitElements (fuel + 1) (parseElements (fuel + 1)) := by
  intro b hb hfuel
  rw [parseElements]
  have hskip := (Further.advance Nat.one_pos hb).skipWhitespace
  apply (hvalue.element hskip hfuel).bind
  · exact fun b' => .failed b b'
  · intro item b' hfurther hitem
    exact hmore.next (hskip.trans hfurther.skipWhitespace) hfuel ⟨hitem, trivial⟩
      fun items hitems => ⟨hitem, hitems⟩

theorem parseMembers_loops (hvalue : Values fuel)
    (hmore : Loops FitMembers fuel (parseMembers fuel)) :
    Loops FitMembers (fuel + 1) (parseMembers (fuel + 1)) := by
  intro b hb hfuel
  rw [parseMembers]
  apply parseName_inBounds.bind
  · exact fun b' => .failed b b'
  · rintro name b₁ hname ⟨hlegible, hlt⟩
    have hskip := hname.trans (Further.advance Nat.one_pos hlt).skipWhitespace
    apply (hvalue.element hskip hfuel).bind
    · exact fun b' => .failed b b'
    · intro item b' hfurther hitem
      exact hmore.next (hskip.trans hfurther.skipWhitespace) hfuel ⟨hlegible, hitem, trivial⟩
        fun items hitems => ⟨hlegible, hitem, hitems⟩

/-- Fuel for the bytes that are left is enough. -/
theorem parse_inBounds (fuel : Nat) :
    Values fuel ∧ Loops FitElements fuel (parseElements fuel) ∧
      Loops FitMembers fuel (parseMembers fuel) := by
  induction fuel with
  | zero =>
    refine ⟨fun b hb hfuel => ?_, fun b hb hfuel => ?_, fun b hb hfuel => ?_⟩
    all_goals omega
  | succ fuel ih =>
    obtain ⟨hvalue, helements, hmembers⟩ := ih
    exact ⟨fun b hb hfuel => parseValue_inBounds (by omega) helements hmembers,
      parseElements_loops hvalue helements, parseMembers_loops hvalue hmembers⟩

end Loops

theorem skipUtf8Bom_start (value : Bytes) :
    let b := (ParseBuffer.mk value 0 0).skipUtf8Bom
    b.offset ≤ b.length ∧ b.content = value ∧ b.depth = 0 := by
  simp only [ParseBuffer.skipUtf8Bom]
  split
  · rename_i hbom
    have hcan : 0 + 4 < value.length := by
      simpa [ParseBuffer.canAccessAtIndex, ParseBuffer.length] using hbom.1
    exact ⟨by simp only [ParseBuffer.advance, ParseBuffer.length]; omega, rfl, rfl⟩
  · exact ⟨Nat.zero_le _, rfl, rfl⟩

/-- The parser reads no byte outside the text and writes none outside what it has allocated,
comes to its end, and builds trees of bounded depth with strings that end where they should. -/
theorem parseWithLength_inBounds (value : Bytes) :
    ∃ item, parseWithLength value = .ok item ∧ ∀ t, item = some t → Fits 0 t := by
  unfold parseWithLength
  split
  · exact ⟨none, rfl, fun _ h => nomatch h⟩
  · obtain ⟨hlow, hcontent, hdepth⟩ := skipUtf8Bom_start value
    have hbound := (skipWhitespace_spec hlow).2.1
    generalize (ParseBuffer.mk value 0 0).skipUtf8Bom = b at *
    have hlength : b.skipWhitespace.length = value.length := by
      simp [ParseBuffer.length, hcontent]
    obtain ⟨x, b', hread, hx⟩ := (parse_inBounds (2 * value.length + 2)).1 b.skipWhitespace
      (by simpa using hbound) (by omega)
    rw [hread]
    refine ⟨x, rfl, fun t ht => ?_⟩
    have hfits := (hx t ht).2
    rwa [depth_skipWhitespace, hdepth] at hfits

end JsonText

end LibEmbedding
