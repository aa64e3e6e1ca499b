import LibEmbedding.Reranker
import LibEmbedding.TokenizerAgree
import LibEmbedding.TokenizerFolding

/-!
# What the reranker feeds the model for a pair

The query, ` [SEP] ` and the document go through the encoder as one text, so the marker is
pre-tokenised like any other text. What this comes to for every query and document, and when it
is the pair encoding that the model was trained on.
-/

namespace LibEmbedding

open Foundation

/-- What stands between the query and the document. -/
def marker : Bytes := ascii " [SEP] "

-- ---------------------------------------------------------------------------
-- Bytes that a query borrows
-- ---------------------------------------------------------------------------

/-- A unit that borrows a blank and a bracket folds to no letter. -/
theorem normalizedUnit_borrowed (hlack : more.length + 1 + k = utf8Length c) (hk : 2 ≤ k) :
    normalizedUnit (c :: (more ++ marker.take k)) = c :: (more ++ marker.take k) := by
  refine normalizeUnit_high ?_ _
  rcases lead_cases c with ⟨-, hone⟩ | ⟨hhigh, ⟨-, hlead⟩ | ⟨htwo, ⟨hthree, hlead⟩ |
    ⟨hthree, ⟨hfour, hlead⟩ | ⟨-, hone⟩⟩⟩⟩
  · omega
  · omega
  · obtain rfl : more = [] := List.eq_nil_of_length_eq_zero (by omega)
    obtain rfl : k = 2 := by simp at hlack; omega
    simp [utf8Next, hhigh, htwo, hthree, marker, ascii]
  · have hk' : k = 2 ∨ k = 3 := by omega
    rcases hk' with rfl | rfl
    · obtain ⟨b, rfl⟩ := List.length_eq_one_iff.mp (by omega : more.length = 1)
      simp [utf8Next, hhigh, htwo, hthree, hfour, marker, ascii]
    · obtain rfl : more = [] := List.eq_nil_of_length_eq_zero (by omega)
      simp [utf8Next, hhigh, htwo, hthree, hfour, marker, ascii]
  · omega

namespace TokenizerWrapper

-- ---------------------------------------------------------------------------
-- Words of joined texts
-- ---------------------------------------------------------------------------

variable {t : TokenizerWrapper}

/-- What is left of the marker is plain text that ends in a blank. -/
theorem processed_marker (t : TokenizerWrapper) (hk : k ≤ 3) :
    ∃ front, Units front ∧ t.processed (marker.drop k) = front ++ [32] ∧
      (k ≤ 1 → ∀ rest, Breaks (front ++ [32] ++ rest)) := by
  have hascii (s : Bytes) (hs : ∀ c ∈ s, c < 0x80) (c : UInt8) (more : Bytes) (hcons : s = c :: more)
      (hc : k ≤ 1 → c ≤ 0x20 ∨ isPunctuation c = true ∨ 0x80 ≤ c)
      (heq : t.processed (marker.drop k) = s ++ [32]) :
      ∃ front, Units front ∧ t.processed (marker.drop k) = front ++ [32] ∧
        (k ≤ 1 → ∀ rest, Breaks (front ++ [32] ++ rest)) := by
    refine ⟨s, units_ascii hs, heq, fun hle rest => ?_⟩
    rw [hcons]
    exact breaks_cons (hc hle)
  unfold processed at hascii ⊢
  cases hlower : t.doLowerCase with
  | true =>
    rw [hlower] at hascii
    interval_cases k
    · exact hascii (ascii " [sep]") (by decide +kernel) 32 (ascii "[sep]") rfl (fun _ => by decide) rfl
    · exact hascii (ascii "[sep]") (by decide +kernel) 91 (ascii "sep]") rfl (fun _ => by decide) rfl
    · exact hascii (ascii "sep]") (by decide +kernel) 115 (ascii "ep]") rfl (by decide) rfl
    · exact hascii (ascii "ep]") (by decide +kernel) 101 (ascii "p]") rfl (by decide) rfl
  | false =>
    rw [hlower] at hascii
    interval_cases k
    · exact hascii (ascii " [SEP]") (by decide +kernel) 32 (ascii "[SEP]") rfl (fun _ => by decide) rfl
    · exact hascii (ascii "[SEP]") (by decide +kernel) 91 (ascii "SEP]") rfl (fun _ => by decide) rfl
    · exact hascii (ascii "SEP]") (by decide +kernel) 83 (ascii "EP]") rfl (by decide) rfl
    · exact hascii (ascii "EP]") (by decide +kernel) 69 (ascii "P]") rfl (by decide) rfl

theorem units_marker : ∀ k ≤ 3, Units (marker.drop k) :=
  fun k _ => units_ascii fun c hc =>
    (by decide +kernel : ∀ c ∈ marker, c < 0x80) c (List.mem_of_mem_drop hc)

/-- The document's words stand behind what is left of the marker. -/
theorem basicTokenize_marker (hfront : Units front) (b : Bytes) :
    basicTokenize (front ++ [32] ++ b) = basicTokenize (front ++ [32]) ++ basicTokenize b := by
  have hblank (s : Bytes) : Breaks (32 :: s) := breaks_cons (.inl (by decide))
  have hown : basicTokenize (front ++ [32]) = basicTokenize front := by
    rw [basicTokenize_append hfront (hblank []), basicTokenize_space]
    exact List.append_nil _
  rw [hown, List.append_assoc, List.singleton_append, basicTokenize_append hfront (hblank b),
    basicTokenize_space]

theorem words_marker (t : TokenizerWrapper) (hk : k ≤ 3) (d : Bytes) :
    t.words (marker.drop k ++ d) = t.words (marker.drop k) ++ t.words d := by
  obtain ⟨front, hfront, heq, -⟩ := t.processed_marker hk
  rw [words, processed_append (units_marker k hk), heq, basicTokenize_marker hfront]
  rw [words, words, heq]

/-- The words of a pair: those of the query with the bytes it borrows, those of the rest of the
marker, and those of the document. -/
theorem words_pair (t : TokenizerWrapper) (q d : Bytes) :
    t.words (q ++ marker ++ d) = t.words (q ++ marker.take (lack q)) ++
      t.words (marker.drop (lack q)) ++ t.words d := by
  have hjoin (k : Nat) : q ++ marker ++ d = (q ++ marker.take k) ++ (marker.drop k ++ d) := by
    rw [List.append_assoc, List.append_assoc, ← List.append_assoc (marker.take k),
      List.take_append_drop]
  rcases lackLoop_spec q.length q le_rfl with ⟨hzero, hunits⟩ | ⟨front, c, more, rfl, hfront, hpos, hadd⟩
  · have hlack : lack q = 0 := hzero
    have hk : 0 ≤ 3 := by decide
    obtain ⟨tail, -, heq, hbreaks⟩ := t.processed_marker hk
    rw [hjoin 0, hlack, List.append_assoc (t.words _), ← words_marker t hk]
    rw [List.take_zero, List.append_nil, words, processed_append hunits, words, words]
    refine basicTokenize_append (units_processed hunits) ?_
    rw [processed_append (units_marker 0 hk), heq]
    exact hbreaks (by decide) _
  · -- The last unit takes the first bytes of the marker.
    change 0 < lack (front ++ c :: more) at hpos
    change more.length + 1 + lack (front ++ c :: more) = utf8Length c at hadd
    generalize hlack : lack (front ++ c :: more) = k at hpos hadd ⊢
    have hk : k ≤ 3 := by
      have hle := utf8Length_le c
      omega
    have htake : (marker.take k).length = k := by
      have hmarker : marker.length = 7 := rfl
      rw [List.length_take, hmarker]
      omega
    have hunit : (more ++ marker.take k).length + 1 = utf8Length c := by
      rw [List.length_append, htake]
      omega
    have hisUnit : IsUnit (c :: (more ++ marker.take k)) := ⟨c, _, rfl, hunit⟩
    have hquery : front ++ c :: more ++ marker.take k = front ++ c :: (more ++ marker.take k) := by
      simp
    have hunits : Units (front ++ c :: (more ++ marker.take k)) :=
      hfront.append hisUnit.units
    obtain ⟨tail, -, heq, hbreaks⟩ := t.processed_marker hk
    rw [hjoin k, List.append_assoc (t.words _), ← words_marker t hk, hquery]
    rw [words, processed_append hunits, words, words]
    by_cases hone : k ≤ 1
    · refine basicTokenize_append (units_processed hunits) ?_
      rw [processed_append (units_marker k hk), heq]
      exact hbreaks hone _
    · -- With two bytes or more the last unit is a word by itself.
      have hc : 0x80 ≤ c := by
        rw [← UInt8.not_lt]
        intro hascii
        have hlength := utf8Length_ascii c hascii
        omega
      have hlast : t.processed (front ++ c :: (more ++ marker.take k)) =
          t.processed front ++ c :: (more ++ marker.take k) := by
        rw [processed_append hfront]
        congr 1
        unfold processed
        split
        · have hnormal := bertNormalize_unit hisUnit []
          rw [List.append_nil, normalizedUnit_borrowed hadd (by omega)] at hnormal
          rw [hnormal]
          exact List.append_nil _
        · rfl
      have hbreak (s : Bytes) : Breaks (c :: (more ++ marker.take k) ++ s) :=
        breaks_cons (.inr (.inr hc))
      have hsplit (s : Bytes) :
          basicTokenize (t.processed front ++ (c :: (more ++ marker.take k) ++ s)) =
            basicTokenize (t.processed front) ++
              (c :: (more ++ marker.take k)) :: basicTokenize s := by
        rw [basicTokenize_append (units_processed hfront) (hbreak s), basicTokenize_unit hc hunit]
      have hnil := hsplit []
      rw [List.append_nil] at hnil
      rw [hlast, List.append_assoc, hsplit, hnil, List.append_assoc]
      rfl

theorem tok_pair (t : TokenizerWrapper) (q d : Bytes) :
    t.tok (pairText q d) =
      t.tok (q ++ marker.take (lack q)) ++ t.tok (marker.drop (lack q)) ++ t.tok d := by
  have hwords : t.words (pairText q d) = _ := t.words_pair q d
  rw [tok, hwords, List.foldl_append, List.foldl_append, foldl_tokenizeWord_append,
    foldl_tokenizeWord_append t (List.foldl _ _ _)]
  rfl

end TokenizerWrapper

-- ---------------------------------------------------------------------------
-- What the model is fed
-- ---------------------------------------------------------------------------

/-- A loaded WordPiece tokenizer whose vocabulary holds its special tokens. -/
structure PairTokenizer extends TokenizerWrapper where
  wordpiece : type = .wordpiece
  special : addSpecialTokens = true
  hasCls : vocab.lookup (ascii "[CLS]") = some clsTokenId
  hasSep : vocab.lookup (ascii "[SEP]") = some sepTokenId

/-- The ids of a row that its mask keeps. -/
def attended (enc : EncodingBatch) (i : Nat) : List Int :=
  ((enc.inputIds.getD i []).zip (enc.attentionMask.getD i [])).filterMap fun row =>
    if row.2 = 1 then some row.1 else none

theorem filterMap_padded (ids : List Int) (n : Nat) (fill : Int) :
    ((ids ++ List.replicate n fill).zip
      (List.replicate ids.length 1 ++ List.replicate n 0)).filterMap
        (fun row : Int × Int => if row.2 = 1 then some row.1 else none) = ids := by
  induction ids with
  | nil =>
    induction n with
    | zero => rfl
    | succ n ih =>
      simp only [List.length_nil, List.replicate_zero, List.nil_append] at ih ⊢
      rw [List.replicate_succ, List.replicate_succ, List.zip_cons_cons, List.filterMap_cons]
      exact ih
  | cons id ids ih =>
    rw [List.length_cons, List.replicate_succ, List.cons_append, List.cons_append,
      List.zip_cons_cons, List.filterMap_cons]
    exact congrArg (id :: ·) ih

/-- A row's mask keeps the encoding of its text, in every batch. -/
theorem attended_eq (t : TokenizerWrapper) {texts : List Bytes} (h : texts[i]? = some text) :
    attended (t.encodeBatch texts) i = t.encode text := by
  have hle := t.length_encode_le_seqLength (List.mem_of_getElem? h)
  rw [attended, List.getD_eq_getElem?_getD, List.getD_eq_getElem?_getD, t.inputIds_getElem? h,
    t.attentionMask_getElem? h, Option.getD_some, Option.getD_some,
    TokenizerWrapper.resize_of_le hle,
    TokenizerWrapper.resize_of_le (by rw [List.length_replicate]; exact hle),
    List.length_replicate]
  exact filterMap_padded _ _ _

namespace PairTokenizer

variable (t : PairTokenizer) (q d : Bytes)

/-- In every batch of documents the model is fed, for the document, the pair encoding cut to the
greatest length. -/
def FedPair : Prop :=
  ∀ (documents : List Bytes) i, documents[i]? = some d →
    attended (t.encodeBatch (documents.map (pairText q))) i =
      t.truncate (t.clsTokenId :: (t.tok q ++ t.sepTokenId :: t.tok d) ++ [t.sepTokenId])

/-- Between the first and the last id of the greatest length, the query with the bytes it borrows,
the rest of the marker and the document look like query, separator and document. -/
def AgreesWithin : Prop :=
  (t.tok (q ++ marker.take (lack q)) ++ t.tok (marker.drop (lack q)) ++ t.tok d).take
    (t.maxLength - 2) = (t.tok q ++ t.sepTokenId :: t.tok d).take (t.maxLength - 2)

theorem fedPair_iff_encode : t.FedPair q d ↔ t.encode (pairText q d) =
    t.truncate (t.clsTokenId :: (t.tok q ++ t.sepTokenId :: t.tok d) ++ [t.sepTokenId]) := by
  constructor
  · intro h
    have hsingle := h [d] 0 rfl
    have hfirst : ([d].map (pairText q))[0]? = some (pairText q d) := rfl
    rwa [attended_eq t.toTokenizerWrapper hfirst] at hsingle
  · intro h documents i hi
    rw [attended_eq t.toTokenizerWrapper (by rw [List.getElem?_map, hi]; rfl)]
    exact h

theorem tokenizeWord_ne_nil (t : TokenizerWrapper) (c : UInt8) : t.tokenizeWord [] [c] ≠ [] := by
  unfold TokenizerWrapper.tokenizeWord
  split
  · unfold TokenizerWrapper.wordpieceTokenize
    rw [if_neg (List.cons_ne_nil _ _)]
    split
    · exact List.cons_ne_nil _ _
    · have hstart : 0 < [c].length := Nat.one_pos
      change t.wordpieceLoop [c] 1 0 false [] ≠ []
      rw [TokenizerWrapper.wordpieceLoop, if_pos hstart]
      split
      · rw [TokenizerWrapper.wordpieceLoop_append]
        exact List.cons_ne_nil _ _
      · exact List.cons_ne_nil _ _
  · have hpos := utf8Length_pos c
    obtain ⟨n, hn⟩ := Nat.exists_eq_succ_of_ne_zero hpos.ne'
    simp [TokenizerWrapper.bpeTokenize, TokenizerWrapper.symbolsLoop, TokenizerWrapper.mergeLoop]

/-- The marker starts with the word `[`, so it comes to some id. -/
theorem tok_marker_ne_nil (t : TokenizerWrapper) : t.tok marker ≠ [] := by
  have hwords : ∃ rest, t.words marker = [91] :: rest := by
    unfold TokenizerWrapper.words TokenizerWrapper.processed
    split
    · exact ⟨[ascii "sep", [93]], by decide⟩
    · exact ⟨[ascii "SEP", [93]], by decide⟩
  obtain ⟨rest, hrest⟩ := hwords
  rw [TokenizerWrapper.tok, hrest, List.foldl_cons, TokenizerWrapper.foldl_tokenizeWord_append]
  exact List.append_ne_nil_of_left_ne_nil (tokenizeWord_ne_nil t 91) _

/-- The model is fed the pair encoding exactly where the marker goes unnoticed within the
budget. -/
theorem fedPair_iff : t.FedPair q d ↔ t.AgreesWithin q d := by
  rw [fedPair_iff_encode, TokenizerWrapper.encode_eq t.special,
    TokenizerWrapper.truncate_sep t.special, TokenizerWrapper.truncate_sep t.special,
    List.append_left_inj, TokenizerWrapper.tok_pair, AgreesWithin]
  have hpos := t.maxLengthPos
  obtain ⟨n, hn⟩ : ∃ n, t.maxLength - 1 = n := ⟨_, rfl⟩
  cases n with
  | zero =>
    have hnone : t.maxLength - 2 = 0 := by omega
    rw [hn, hnone]
    exact iff_of_true rfl rfl
  | succ n =>
    have hrest : t.maxLength - 2 = n := by omega
    rw [hn, hrest, List.take_succ_cons, List.take_succ_cons, List.cons_inj_right]

variable {t q}

/-- A query that borrows nothing, before a marker that does not start like the separator, must
leave no room for it. -/
theorem agreesWithin_iff_spent (hwhole : lack q = 0)
    (hmarker : (t.tok marker).head? ≠ some t.sepTokenId) :
    t.AgreesWithin q d ↔ t.maxLength ≤ (t.tok q).length + 2 := by
  unfold AgreesWithin
  rw [hwhole, List.take_zero, List.append_nil, List.drop_zero, List.append_assoc]
  constructor
  · intro h
    by_contra hroom
    obtain ⟨n, hn⟩ : ∃ n, t.maxLength - 2 = (t.tok q).length + (n + 1) :=
      ⟨t.maxLength - 2 - (t.tok q).length - 1, by omega⟩
    rw [hn, List.take_length_add_append, List.take_length_add_append, List.append_cancel_left_eq]
      at h
    have hhead := congrArg List.head? h
    rw [List.take_succ_cons, List.head?_cons] at hhead
    cases hids : t.tok marker with
    | nil =>
      have hmark : t.tok marker ≠ [] := tok_marker_ne_nil t.toTokenizerWrapper
      exact hmark hids
    | cons id ids =>
      rw [hids, List.cons_append, List.take_succ_cons, List.head?_cons] at hhead
      rw [hids, List.head?_cons] at hmarker
      exact hmarker hhead
  · intro hspent
    rw [List.take_append_of_le_length (by omega), List.take_append_of_le_length (by omega)]

variable (t)

/-- The sample vocabulary of the loaders, with room for eight ids. -/
def sample : PairTokenizer where
  toTokenizerWrapper := TokenizerWrapper.sampleWrapper
  wordpiece := rfl
  special := rfl
  hasCls := by decide +kernel
  hasSep := by decide +kernel

/-- The marker is encoded as three unknown words. -/
theorem sample_not_fedPair : ¬sample.FedPair (ascii "a") (ascii "a") := by
  rw [fedPair_iff_encode]
  decide +kernel

end PairTokenizer

end LibEmbedding
