import LibEmbedding.Foundation.Utf8
import LibEmbedding.TokenizerScan

/-!
# What normalisation makes of a text

On the encoding of a text `bert_normalize` works character by character. Each character is
compared with its BERT normalisation: lower case, then the canonical decomposition without
its combining marks. And a second normalisation changes nothing, on any bytes.
-/

namespace LibEmbedding

open Foundation

-- ---------------------------------------------------------------------------
-- Well-formed sequences
-- ---------------------------------------------------------------------------

theorem lead_two : ∀ b : UInt8, 0xC2 ≤ b → b < 0xE0 → ¬b < 0x80 ∧ b &&& 0xE0 = 0xC0 ∧
    (b &&& 0x1F).toNat = b.toNat - 0xC0 :=
  forall_byte (by decide +kernel)

theorem lead_three : ∀ b : UInt8, 0xE0 ≤ b → b < 0xF0 → ¬b < 0x80 ∧ b &&& 0xE0 ≠ 0xC0 ∧
    b &&& 0xF0 = 0xE0 ∧ (b &&& 0x0F).toNat = b.toNat - 0xE0 :=
  forall_byte (by decide +kernel)

theorem lead_four : ∀ b : UInt8, 0xF0 ≤ b → b < 0xF5 → ¬b < 0x80 ∧ b &&& 0xE0 ≠ 0xC0 ∧
    b &&& 0xF0 ≠ 0xE0 ∧ b &&& 0xF8 = 0xF0 ∧ (b &&& 0x07).toNat = b.toNat - 0xF0 :=
  forall_byte (by decide +kernel)

theorem trail_low : ∀ d : UInt8, Trail d → (d &&& 0x3F).toNat = d.toNat - 0x80 :=
  forall_byte (by decide +kernel)

/-- The decoder finds a well-formed sequence and its code point. -/
theorem utf8Next_sequence (h : Sequence v (b :: more)) :
    utf8Next b more = (v, utf8Length b) ∧ more.length + 1 = utf8Length b := by
  cases h with
  | one hb => simp [utf8Next, hb, utf8Length_ascii b hb]
  | two hb hb' hd =>
    obtain ⟨hhigh, htwo, hlead⟩ := lead_two b hb hb'
    simp [utf8Next, utf8Length, hhigh, htwo, hlead, trail_low _ hd]
  | three hb hb' hd he =>
    obtain ⟨hhigh, htwo, hthree, hlead⟩ := lead_three b hb hb'
    simp [utf8Next, utf8Length, hhigh, htwo, hthree, hlead, trail_low _ hd, trail_low _ he]
  | four hb hb' hd he hf =>
    obtain ⟨hhigh, htwo, hthree, hfour, hlead⟩ := lead_four b hb hb'
    simp [utf8Next, utf8Length, hhigh, htwo, hthree, hfour, hlead, trail_low _ hd, trail_low _ he,
      trail_low _ hf]

theorem isUnit_char (c : Char) : IsUnit (String.utf8EncodeChar c) := by
  obtain ⟨b, more, hencode, -⟩ := utf8EncodeChar_eq_cons c
  have hsequence := utf8EncodeChar_sequence c
  rw [hencode] at hsequence ⊢
  exact ⟨b, more, rfl, (utf8Next_sequence hsequence).2⟩

/-- What a character is normalised to. -/
def normalizeChar (c : Char) : Bytes := normalizeUnit c.toNat (String.utf8EncodeChar c)

theorem bertNormalize_char (c : Char) (rest : Bytes) :
    bertNormalize (String.utf8EncodeChar c ++ rest) = normalizeChar c ++ bertNormalize rest := by
  rw [bertNormalize_unit (isUnit_char c)]
  congr 1
  obtain ⟨b, more, hencode, -⟩ := utf8EncodeChar_eq_cons c
  have hsequence := utf8EncodeChar_sequence c
  rw [hencode] at hsequence
  rw [normalizeChar, hencode, normalizedUnit, (utf8Next_sequence hsequence).1]

theorem bertNormalize_utf8 (text : List Char) :
    bertNormalize (utf8 text) = text.flatMap normalizeChar := by
  induction text with
  | nil => rfl
  | cons c text ih => rw [utf8_cons, bertNormalize_char, ih, List.flatMap_cons]

-- ---------------------------------------------------------------------------
-- The reference
-- ---------------------------------------------------------------------------

/-- Unicode lower case, up to U+017F. -/
def lowerCase (c : Char) : List Char :=
  let n := c.toNat
  if 0x41 ≤ n ∧ n ≤ 0x5A ∨ 0xC0 ≤ n ∧ n ≤ 0xDE ∧ n ≠ 0xD7 then [Char.ofNat (n + 0x20)]
  else if n = 0x130 then [Char.ofNat 0x69, Char.ofNat 0x307]
  else if n = 0x178 then [Char.ofNat 0xFF]
  else if (0x100 ≤ n ∧ n ≤ 0x137 ∨ 0x14A ≤ n ∧ n ≤ 0x177) ∧ n % 2 = 0 then [Char.ofNat (n + 1)]
  else if (0x139 ≤ n ∧ n ≤ 0x148 ∨ 0x179 ≤ n ∧ n ≤ 0x17E) ∧ n % 2 = 1 then [Char.ofNat (n + 1)]
  else [c]

/-- The canonical decompositions of the small letters up to U+017F: letter, base and mark. -/
def decompositions : List (Nat × Nat × Nat) := [
  (0xE0, 0x61, 0x300), (0xE1, 0x61, 0x301), (0xE2, 0x61, 0x302), (0xE3, 0x61, 0x303),
  (0xE4, 0x61, 0x308), (0xE5, 0x61, 0x30A), (0xE7, 0x63, 0x327), (0xE8, 0x65, 0x300),
  (0xE9, 0x65, 0x301), (0xEA, 0x65, 0x302), (0xEB, 0x65, 0x308), (0xEC, 0x69, 0x300),
  (0xED, 0x69, 0x301), (0xEE, 0x69, 0x302), (0xEF, 0x69, 0x308), (0xF1, 0x6E, 0x303),
  (0xF2, 0x6F, 0x300), (0xF3, 0x6F, 0x301), (0xF4, 0x6F, 0x302), (0xF5, 0x6F, 0x303),
  (0xF6, 0x6F, 0x308), (0xF9, 0x75, 0x300), (0xFA, 0x75, 0x301), (0xFB, 0x75, 0x302),
  (0xFC, 0x75, 0x308), (0xFD, 0x79, 0x301), (0xFF, 0x79, 0x308), (0x101, 0x61, 0x304),
  (0x103, 0x61, 0x306), (0x105, 0x61, 0x328), (0x107, 0x63, 0x301), (0x109, 0x63, 0x302),
  (0x10B, 0x63, 0x307), (0x10D, 0x63, 0x30C), (0x10F, 0x64, 0x30C), (0x113, 0x65, 0x304),
  (0x115, 0x65, 0x306), (0x117, 0x65, 0x307), (0x119, 0x65, 0x328), (0x11B, 0x65, 0x30C),
  (0x11D, 0x67, 0x302), (0x11F, 0x67, 0x306), (0x121, 0x67, 0x307), (0x123, 0x67, 0x327),
  (0x125, 0x68, 0x302), (0x129, 0x69, 0x303), (0x12B, 0x69, 0x304), (0x12D, 0x69, 0x306),
  (0x12F, 0x69, 0x328), (0x135, 0x6A, 0x302), (0x137, 0x6B, 0x327), (0x13A, 0x6C, 0x301),
  (0x13C, 0x6C, 0x327), (0x13E, 0x6C, 0x30C), (0x144, 0x6E, 0x301), (0x146, 0x6E, 0x327),
  (0x148, 0x6E, 0x30C), (0x14D, 0x6F, 0x304), (0x14F, 0x6F, 0x306), (0x151, 0x6F, 0x30B),
  (0x155, 0x72, 0x301), (0x157, 0x72, 0x327), (0x159, 0x72, 0x30C), (0x15B, 0x73, 0x301),
  (0x15D, 0x73, 0x302), (0x15F, 0x73, 0x327), (0x161, 0x73, 0x30C), (0x163, 0x74, 0x327),
  (0x165, 0x74, 0x30C), (0x169, 0x75, 0x303), (0x16B, 0x75, 0x304), (0x16D, 0x75, 0x306),
  (0x16F, 0x75, 0x30A), (0x171, 0x75, 0x30B), (0x173, 0x75, 0x328), (0x175, 0x77, 0x302),
  (0x177, 0x79, 0x302), (0x17A, 0x7A, 0x301), (0x17C, 0x7A, 0x307), (0x17E, 0x7A, 0x30C)]

def decompose (c : Char) : List Char :=
  match decompositions.find? (·.1 = c.toNat) with
  | some (_, base, mark) => [Char.ofNat base, Char.ofNat mark]
  | none => [c]

/-- The combining marks of these decompositions. -/
def isMark (c : Char) : Bool := 0x300 ≤ c.toNat && c.toNat ≤ 0x36F

/-- BERT normalisation: of the code points up to U+017F, lower case decomposed without its
combining marks; the others are left alone. -/
def referenceNormalize (c : Char) : List Char :=
  if c.toNat ≤ 0x17F then ((lowerCase c).flatMap decompose).filter fun d => !isMark d else [c]

-- ---------------------------------------------------------------------------
-- Folding
-- ---------------------------------------------------------------------------

/-- The code points of Latin Extended-A that are normalised as documented. -/
def foldedRight : List Nat :=
  [0x111, 0x127, 0x130, 0x133, 0x138, 0x140, 0x142, 0x149, 0x14B, 0x153, 0x167]

/-- The four capitals of Latin-1 without a decomposition, and Latin Extended-A but for U+0130
and the small letters without a decomposition other than U+0131 and U+017F. -/
def Missed (c : Char) : Prop :=
  c.toNat ∈ [0xC6, 0xD0, 0xD8, 0xDE] ∨
    0x100 ≤ c.toNat ∧ c.toNat ≤ 0x17F ∧ c.toNat ∉ foldedRight

instance (c : Char) : Decidable (Missed c) := inferInstanceAs (Decidable (_ ∨ _))

theorem normalizeChar_low : ∀ n < 0x180, if Missed (Char.ofNat n)
    then ¬normalizeChar (Char.ofNat n) <+: utf8 (referenceNormalize (Char.ofNat n)) ∧
      ¬utf8 (referenceNormalize (Char.ofNat n)) <+: normalizeChar (Char.ofNat n)
    else normalizeChar (Char.ofNat n) = utf8 (referenceNormalize (Char.ofNat n)) := by
  decide +kernel

theorem normalizeUnit_high (h : 0x17F < cp) (raw : Bytes) : normalizeUnit cp raw = raw := by
  unfold normalizeUnit
  dsimp only
  rw [if_neg (by omega), if_neg (by omega), if_neg (by omega), if_neg (by omega)]

theorem normalizeChar_eq (h : ¬Missed c) : normalizeChar c = utf8 (referenceNormalize c) := by
  by_cases hlow : c.toNat ≤ 0x17F
  · have hall := normalizeChar_low c.toNat (Nat.lt_succ_of_le hlow)
    rw [Char.ofNat_toNat, if_neg h] at hall
    exact hall
  · rw [normalizeChar, normalizeUnit_high (Nat.lt_of_not_le hlow), referenceNormalize, if_neg hlow,
      utf8_cons, utf8_nil, List.append_nil]

/-- A missed character differs from its normalisation within the bytes of either. -/
theorem normalizeChar_missed (h : Missed c) :
    ¬normalizeChar c <+: utf8 (referenceNormalize c) ∧
      ¬utf8 (referenceNormalize c) <+: normalizeChar c := by
  have hlow : c.toNat < 0x180 := by
    rcases h with h | ⟨-, h, -⟩
    · have hall : ∀ n ∈ [0xC6, 0xD0, 0xD8, 0xDE], n < 0x180 := by decide
      exact hall _ h
    · exact Nat.lt_succ_of_le h
  have hall := normalizeChar_low c.toNat hlow
  rwa [Char.ofNat_toNat, if_pos h] at hall

/-- Two codings that differ within the bytes of either agree on a text just where they agree
on each of its characters. -/
theorem flatMap_eq_iff {f g : α → List β} {P : α → Prop} (hgood : ∀ a, ¬P a → f a = g a)
    (hbad : ∀ a, P a → ¬f a <+: g a ∧ ¬g a <+: f a) (l : List α) :
    l.flatMap f = l.flatMap g ↔ ∀ a ∈ l, ¬P a := by
  induction l with
  | nil => simp
  | cons a l ih =>
    rw [List.flatMap_cons, List.flatMap_cons, List.forall_mem_cons, ← ih]
    by_cases ha : P a
    · refine iff_of_false (fun heq => ?_) fun h => h.1 ha
      rcases List.append_eq_append_iff.mp heq with ⟨more, hmore, -⟩ | ⟨more, hmore, -⟩
      · exact (hbad a ha).1 ⟨more, hmore.symm⟩
      · exact (hbad a ha).2 ⟨more, hmore.symm⟩
    · rw [hgood a ha, List.append_cancel_left_eq]
      exact ⟨fun h => ⟨ha, h⟩, And.right⟩

theorem utf8_flatMap (f : Char → List Char) (text : List Char) :
    utf8 (text.flatMap f) = text.flatMap fun c => utf8 (f c) := by
  simp only [utf8, List.flatMap_assoc]

/-- A text is normalised as documented exactly if none of its characters is missed. -/
theorem bertNormalize_documented_iff (text : List Char) :
    bertNormalize (utf8 text) = utf8 (text.flatMap referenceNormalize) ↔ ∀ c ∈ text, ¬Missed c := by
  rw [bertNormalize_utf8, utf8_flatMap]
  exact flatMap_eq_iff (fun c h => normalizeChar_eq h) (fun c h => normalizeChar_missed h) text

/-- U+010D keeps its caron. -/
theorem czech_letter_missed :
    bertNormalize (utf8 [Char.ofNat 0x10D]) ≠
      utf8 ([Char.ofNat 0x10D].flatMap referenceNormalize) := by
  decide +kernel

-- ---------------------------------------------------------------------------
-- Normalising twice
-- ---------------------------------------------------------------------------

/-- A lead byte whose bytes are there is read with them, any other by itself. -/
theorem utf8Next_whole (h : utf8Length c ≤ rest.length + 1) : (utf8Next c rest).2 = utf8Length c := by
  have hlength : (rest.take (utf8Length c - 1)).length + 1 = utf8Length c := by
    have hpos := utf8Length_pos c
    rw [List.length_take]
    omega
  have hnext := utf8Next_unit hlength (rest.drop (utf8Length c - 1))
  rw [List.take_append_drop] at hnext
  rw [hnext]

theorem utf8Next_short (h : rest.length + 1 < utf8Length c) : utf8Next c rest = (c.toNat, 1) := by
  rcases lead_cases c with ⟨hascii, -⟩ | ⟨hhigh, ⟨htwo, hlead⟩ | ⟨htwo, ⟨hthree, hlead⟩ |
    ⟨hthree, ⟨hfour, hlead⟩ | ⟨hfour, -⟩⟩⟩⟩
  · simp [utf8Next, hascii]
  · obtain rfl : rest = [] := List.eq_nil_of_length_eq_zero (by omega)
    simp [utf8Next, hhigh, htwo]
  · have hrest : ¬2 ≤ rest.length := by omega
    have hrest' : ¬3 ≤ rest.length := by omega
    simp [utf8Next, hhigh, htwo, hthree, hrest, hrest']
  · have hrest : ¬3 ≤ rest.length := by omega
    simp [utf8Next, hhigh, htwo, hthree, hfour, hrest]
  · simp [utf8Next, hhigh, htwo, hthree, hfour]

theorem utf8Next_le (c : UInt8) (rest : Bytes) : (utf8Next c rest).2 ≤ rest.length + 1 := by
  by_cases hwhole : utf8Length c ≤ rest.length + 1
  · rwa [utf8Next_whole hwhole]
  · rw [utf8Next_short (Nat.lt_of_not_le hwhole)]
    exact Nat.le_add_left 1 rest.length

theorem bertNormalize_letter (hlow : 97 ≤ n) (hhigh : n ≤ 122) (rest : Bytes) :
    bertNormalize (UInt8.ofNat n :: rest) = UInt8.ofNat n :: bertNormalize rest := by
  have hascii := letter_ascii n hlow hhigh
  have hvalue : (UInt8.ofNat n).toNat = n := toNat_ofNat_of_lt (by omega)
  have hunit := bertNormalize_unit (isUnit_ascii hascii) rest
  have hown : normalizedUnit [UInt8.ofNat n] = [UInt8.ofNat n] := by
    rw [normalizedUnit, utf8Next, if_pos hascii, hvalue, normalizeUnit]
    dsimp only
    rw [if_neg (by omega), if_neg (by omega), if_neg (by omega), if_neg (by omega)]
  rw [hown] at hunit
  exact hunit

theorem length_bertNormalize_le (s : Bytes) : (bertNormalize s).length ≤ s.length := by
  induction s using scan_induction with
  | nil => exact le_rfl
  | next c rest ih =>
    have hpos := utf8Next_pos c rest
    have htake : 0 < ((c :: rest).take (utf8Next c rest).2).length := by
      rw [List.length_take, List.length_cons]
      omega
    have hunit : (normalizeUnit (utf8Next c rest).1
        ((c :: rest).take (utf8Next c rest).2)).length ≤
          ((c :: rest).take (utf8Next c rest).2).length := by
      rcases normalizeUnit_cases (utf8Next c rest).1 ((c :: rest).take (utf8Next c rest).2)
        with hraw | ⟨m, -, -, hfolded⟩
      · rw [hraw]
      · rw [hfolded]
        exact htake
    have hsplit := congrArg List.length (List.take_append_drop (utf8Next c rest).2 (c :: rest))
    rw [List.length_append] at hsplit
    rw [bertNormalize_cons, List.length_append, ← hsplit]
    exact Nat.add_le_add hunit ih

/-- A unit that was copied is copied again: behind it there are no more bytes than before. -/
theorem bertNormalize_copied (hraw : normalizeUnit (utf8Next c rest).1
      ((c :: rest).take (utf8Next c rest).2) = (c :: rest).take (utf8Next c rest).2)
    (hle : tail.length ≤ ((c :: rest).drop (utf8Next c rest).2).length) :
    bertNormalize ((c :: rest).take (utf8Next c rest).2 ++ tail) =
      (c :: rest).take (utf8Next c rest).2 ++ bertNormalize tail := by
  by_cases hwhole : utf8Length c ≤ rest.length + 1
  · have hlength : (rest.take (utf8Length c - 1)).length + 1 = utf8Length c := by
      have hpos := utf8Length_pos c
      rw [List.length_take]
      omega
    have htake : (c :: rest).take (utf8Length c) = c :: rest.take (utf8Length c - 1) := by
      obtain ⟨n, hn⟩ := Nat.exists_eq_succ_of_ne_zero (utf8Length_pos c).ne'
      rw [hn, List.take_succ_cons]
      rfl
    have hnext := utf8Next_unit hlength (rest.drop (utf8Length c - 1))
    rw [List.take_append_drop] at hnext
    rw [hnext] at hraw ⊢
    dsimp only at hraw ⊢
    rw [htake] at hraw ⊢
    rw [bertNormalize_unit ⟨c, _, rfl, hlength⟩, normalizedUnit, hraw]
  · have hshort := utf8Next_short (Nat.lt_of_not_le hwhole)
    rw [hshort] at hraw hle ⊢
    have htail : utf8Next c tail = (c.toNat, 1) := by
      refine utf8Next_short ?_
      simp only [List.drop_succ_cons, List.drop_zero] at hle
      omega
    simp only [List.take_succ_cons, List.take_zero] at hraw
    rw [List.take_succ_cons, List.take_zero, List.singleton_append, bertNormalize_cons, htail]
    simp only [List.take_succ_cons, List.take_zero, hraw]
    rfl

theorem bertNormalize_twice (s : Bytes) : bertNormalize (bertNormalize s) = bertNormalize s := by
  induction s using scan_induction with
  | nil => rfl
  | next c rest ih =>
    rw [bertNormalize_cons]
    rcases normalizeUnit_cases (utf8Next c rest).1 ((c :: rest).take (utf8Next c rest).2)
      with hraw | ⟨m, hlow, hhigh, hfolded⟩
    · rw [hraw, bertNormalize_copied hraw (length_bertNormalize_le _), ih]
    · rw [hfolded, List.singleton_append, bertNormalize_letter hlow hhigh, ih]

/-- Normalising is idempotent on all byte strings, so a text that was normalised before keeps
its ids. -/
theorem bertNormalize_idempotent (s : Bytes) :
    bertNormalize (bertNormalize s) = bertNormalize s ∧
      ∀ t : TokenizerWrapper, t.encode (t.processed s) = t.encode s := by
  refine ⟨bertNormalize_twice s, fun t => ?_⟩
  have hprocessed : t.processed (t.processed s) = t.processed s := by
    unfold TokenizerWrapper.processed
    split
    · exact bertNormalize_twice s
    · rfl
  simp only [TokenizerWrapper.encode, TokenizerWrapper.encodeSingle]
  unfold TokenizerWrapper.processed at hprocessed ⊢
  rw [hprocessed]

end LibEmbedding
