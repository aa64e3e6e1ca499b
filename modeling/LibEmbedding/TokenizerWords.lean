import LibEmbedding.TokenizerFolding

/-!
# The words of a text

On valid UTF-8 `basic_tokenize` cuts a text into punctuation marks, characters of several
bytes and runs of other bytes above the blank. Nothing but blanks is lost, and the words joined
by blanks are cut into the same words.
-/

namespace LibEmbedding

open Foundation

/-- A byte of a word of several bytes. -/
def WordByte (c : UInt8) : Prop := 0x20 < c ∧ isPunctuation c = false ∧ c < 0x80

/-- What a token of a valid text looks like. -/
inductive IsToken : Bytes → Prop where
  | mark : isPunctuation c = true → IsToken [c]
  | wide : String.utf8EncodeChar ch = c :: more → 0x80 ≤ c → IsToken (c :: more)
  | word : w ≠ [] → (∀ c ∈ w, WordByte c) → IsToken w

-- ---------------------------------------------------------------------------
-- Tokens
-- ---------------------------------------------------------------------------

theorem punctuation_low : ∀ c : UInt8, isPunctuation c = true → 0x20 < c ∧ c < 0x80 :=
  forall_byte (by decide +kernel)

/-- The bytes of a character that takes several are all high. -/
theorem utf8EncodeChar_cases (ch : Char) :
    (∃ c, c < 0x80 ∧ String.utf8EncodeChar ch = [c]) ∨
      ∃ c more, String.utf8EncodeChar ch = c :: more ∧ 0x80 ≤ c ∧ ∀ d ∈ c :: more, 0x20 < d := by
  have htrail {d : UInt8} (h : Trail d) : 0x20 < d := UInt8.lt_of_lt_of_le (by decide) h.1
  obtain ⟨v, hv⟩ : ∃ v, Sequence v (String.utf8EncodeChar ch) := ⟨_, utf8EncodeChar_sequence ch⟩
  generalize String.utf8EncodeChar ch = bytes at hv
  cases hv with
  | one hb => exact .inl ⟨_, hb, rfl⟩
  | two hb _ hd =>
    have hhigh := UInt8.le_trans (by decide : (0x80 : UInt8) ≤ 0xC2) hb
    refine .inr ⟨_, _, rfl, hhigh, ?_⟩
    simpa using ⟨UInt8.lt_of_lt_of_le (by decide) hhigh, htrail hd⟩
  | three hb _ hd he =>
    have hhigh := UInt8.le_trans (by decide : (0x80 : UInt8) ≤ 0xE0) hb
    refine .inr ⟨_, _, rfl, hhigh, ?_⟩
    simpa using ⟨UInt8.lt_of_lt_of_le (by decide) hhigh, htrail hd, htrail he⟩
  | four hb _ hd he hf =>
    have hhigh := UInt8.le_trans (by decide : (0x80 : UInt8) ≤ 0xF0) hb
    refine .inr ⟨_, _, rfl, hhigh, ?_⟩
    simpa using ⟨UInt8.lt_of_lt_of_le (by decide) hhigh, htrail hd, htrail he, htrail hf⟩

theorem utf8_ascii (h : ∀ c ∈ s, c < 0x80) : ∃ text, s = utf8 text := by
  induction s with
  | nil => exact ⟨[], rfl⟩
  | cons c s ih =>
    obtain ⟨hc, hs⟩ := List.forall_mem_cons.mp h
    obtain ⟨text, rfl⟩ := ih hs
    exact ⟨Char.ofNat c.toNat :: text, by rw [utf8_cons, utf8EncodeChar_ascii hc]; rfl⟩

namespace IsToken

theorem ne_nil (h : IsToken w) : w ≠ [] := by
  cases h with
  | mark _ => exact List.cons_ne_nil _ _
  | wide _ _ => exact List.cons_ne_nil _ _
  | word hne _ => exact hne

theorem no_blank (h : IsToken w) : ∀ c ∈ w, 0x20 < c := by
  cases h with
  | mark hc => simpa using (punctuation_low _ hc).1
  | @wide ch c more hch hc =>
    rcases utf8EncodeChar_cases ch with ⟨d, hd, hone⟩ | ⟨d, tail, hmany, -, hall⟩
    · rw [hone] at hch
      obtain ⟨rfl, -⟩ := List.cons.inj hch
      exact absurd hd (UInt8.not_lt.mpr hc)
    · rwa [← hch, hmany]
  | word _ hall => exact fun c hc => (hall c hc).1

theorem utf8 (h : IsToken w) : ∃ text, w = Foundation.utf8 text := by
  cases h with
  | mark hc => exact utf8_ascii (by simpa using (punctuation_low _ hc).2)
  | @wide ch c more hch _ => exact ⟨[ch], by rw [utf8_cons, hch, utf8_nil, List.append_nil]⟩
  | word _ hall => exact utf8_ascii fun c hc => (hall c hc).2.2

theorem units (h : IsToken w) : Units w := by
  cases h with
  | mark hc => exact (isUnit_ascii (punctuation_low _ hc).2).units
  | wide hch _ => exact hch ▸ (isUnit_char _).units
  | word _ hall => exact units_ascii fun c hc => (hall c hc).2.2

theorem tokenizeFrom_word {w : Bytes} (h : ∀ c ∈ w, WordByte c) (current : Bytes) :
    tokenizeFrom current [] w = flush [] (current ++ w) := by
  induction w generalizing current with
  | nil => rw [List.append_nil]; rfl
  | cons c w ih =>
    obtain ⟨⟨hblank, hmark, hlow⟩, hw⟩ := List.forall_mem_cons.mp h
    rw [tokenizeFrom_cons, if_neg (UInt8.not_le.mpr hblank), hmark, if_neg Bool.false_ne_true,
      if_neg (UInt8.not_le.mpr hlow), ih hw, List.append_assoc, List.singleton_append]

/-- A token is cut into itself. -/
theorem alone (h : IsToken w) : basicTokenize w = [w] := by
  cases h with
  | mark hc =>
    have hblank := (punctuation_low _ hc).1
    change tokenizeFrom [] [] _ = _
    rw [tokenizeFrom_cons, if_neg (UInt8.not_le.mpr hblank), if_pos hc]
    rfl
  | @wide ch c more hch hc =>
    obtain ⟨d, tail, heq, htail⟩ := hch ▸ isUnit_char ch
    obtain ⟨rfl, rfl⟩ := List.cons.inj heq
    have hown := basicTokenize_unit hc htail []
    rwa [List.append_nil] at hown
  | word hne hall =>
    have hown := tokenizeFrom_word hall []
    rw [List.nil_append, flush, if_neg hne] at hown
    exact hown

end IsToken

/-- Tokens joined by blanks are cut at the blanks. -/
theorem basicTokenize_joined {tokens : List Bytes} (h : ∀ w ∈ tokens, IsToken w) :
    basicTokenize ([32].intercalate tokens) = tokens := by
  induction tokens with
  | nil => rfl
  | cons w tokens ih =>
    obtain ⟨hw, htokens⟩ := List.forall_mem_cons.mp h
    cases tokens with
    | nil =>
      have hjoined : [32].intercalate [w] = w := by simp [List.intercalate]
      rw [hjoined, hw.alone]
    | cons w' tokens =>
      have hjoined : [32].intercalate (w :: w' :: tokens) =
          w ++ 32 :: [32].intercalate (w' :: tokens) := by
        simp [List.intercalate]
      have hblank (s : Bytes) : Breaks (32 :: s) := breaks_cons (.inl (by decide))
      rw [hjoined, basicTokenize_append hw.units (hblank _), basicTokenize_space, hw.alone,
        ih htokens]
      rfl

-- ---------------------------------------------------------------------------
-- Cutting a text
-- ---------------------------------------------------------------------------

theorem flush_tokens {tokens : List Bytes} (htokens : ∀ w ∈ tokens, IsToken w)
    (hcurrent : ∀ c ∈ current, WordByte c) :
    (∀ w ∈ flush tokens current, IsToken w) ∧
      (flush tokens current).flatten = tokens.flatten ++ current := by
  unfold flush
  split
  · rename_i hnil
    subst hnil
    exact ⟨htokens, (List.append_nil _).symm⟩
  · rename_i hne
    refine ⟨?_, by simp⟩
    rw [List.forall_mem_append, List.forall_mem_singleton]
    exact ⟨htokens, .word hne hcurrent⟩

theorem filter_high {bytes : Bytes} (h : ∀ d ∈ bytes, (0x20 : UInt8) < d) :
    bytes.filter (0x20 < ·) = bytes := by
  rw [List.filter_eq_self]
  intro d hd
  exact decide_eq_true (h d hd)

/-- From any point of a text on, the loop appends tokens that hold the rest of it but for the
blanks. -/
theorem tokenizeFrom_text (text : List Char) (current : Bytes) (tokens : List Bytes)
    (htokens : ∀ w ∈ tokens, IsToken w) (hcurrent : ∀ c ∈ current, WordByte c) :
    (∀ w ∈ tokenizeFrom current tokens (utf8 text), IsToken w) ∧
      (tokenizeFrom current tokens (utf8 text)).flatten =
        tokens.flatten ++ current ++ (utf8 text).filter (0x20 < ·) := by
  induction text generalizing current tokens with
  | nil =>
    have hflush := flush_tokens htokens hcurrent
    rw [utf8_nil, List.filter_nil, List.append_nil]
    exact hflush
  | cons ch text ih =>
    have hnone : ∀ c ∈ ([] : Bytes), WordByte c := fun c hc => absurd hc List.not_mem_nil
    obtain ⟨hflush, hflatten⟩ := flush_tokens htokens hcurrent
    rw [utf8_cons, List.filter_append]
    rcases utf8EncodeChar_cases ch with ⟨c, hlow, hone⟩ | ⟨c, more, hmany, hhigh, hall⟩
    · rw [hone, List.singleton_append, tokenizeFrom_cons]
      by_cases hblank : c ≤ 0x20
      · obtain ⟨hwords, heq⟩ := ih [] (flush tokens current) hflush hnone
        rw [if_pos hblank]
        refine ⟨hwords, ?_⟩
        rw [heq, hflatten, List.filter_cons_of_neg (by simpa using hblank), List.filter_nil,
          List.append_nil, List.nil_append]
      · have hkept : [c].filter (0x20 < ·) = [c] := filter_high (by simpa using hblank)
        rw [if_neg hblank, hkept]
        by_cases hmark : isPunctuation c = true
        · have hmarked : ∀ w ∈ flush tokens current ++ [[c]], IsToken w := by
            rw [List.forall_mem_append, List.forall_mem_singleton]
            exact ⟨hflush, .mark hmark⟩
          obtain ⟨hwords, heq⟩ := ih [] _ hmarked hnone
          rw [if_pos hmark]
          refine ⟨hwords, ?_⟩
          rw [heq, List.flatten_append, hflatten]
          simp
        · have hplain : ∀ d ∈ current ++ [c], WordByte d := by
            rw [List.forall_mem_append, List.forall_mem_singleton]
            exact ⟨hcurrent, UInt8.not_le.mp hblank, Bool.eq_false_iff.mpr hmark, hlow⟩
          obtain ⟨hwords, heq⟩ := ih (current ++ [c]) tokens htokens hplain
          rw [if_neg hmark, if_neg (UInt8.not_le.mpr hlow)]
          refine ⟨hwords, ?_⟩
          rw [heq]
          simp
    · obtain ⟨d, tail, hcons, htail⟩ := hmany ▸ isUnit_char ch
      obtain ⟨rfl, rfl⟩ := List.cons.inj hcons
      have hwide : ∀ w ∈ flush tokens current ++ [c :: more], IsToken w := by
        rw [List.forall_mem_append, List.forall_mem_singleton]
        exact ⟨hflush, .wide hmany hhigh⟩
      obtain ⟨hwords, heq⟩ := ih [] _ hwide hnone
      rw [hmany, tokenizeFrom_unit hhigh htail, filter_high hall]
      refine ⟨hwords, ?_⟩
      rw [heq, List.flatten_append, hflatten]
      simp

/-- On valid UTF-8 pre-tokenisation loses the bytes up to the blank and nothing else, its
tokens are valid words without such bytes, and cutting them again changes nothing. -/
theorem basicTokenize_lossless (text : List Char) :
    (basicTokenize (utf8 text)).flatten = (utf8 text).filter (0x20 < ·) ∧
    (∀ w ∈ basicTokenize (utf8 text),
      w ≠ [] ∧ (∀ c ∈ w, 0x20 < c) ∧ ∃ word, w = utf8 word) ∧
    basicTokenize ([32].intercalate (basicTokenize (utf8 text))) = basicTokenize (utf8 text) := by
  obtain ⟨hwords, hflatten⟩ := tokenizeFrom_text text [] [] (by simp) (by simp)
  change ∀ w ∈ basicTokenize (utf8 text), IsToken w at hwords
  refine ⟨hflatten, fun w hw => ?_, basicTokenize_joined hwords⟩
  have htoken := hwords w hw
  exact ⟨htoken.ne_nil, htoken.no_blank, htoken.utf8⟩

end LibEmbedding
