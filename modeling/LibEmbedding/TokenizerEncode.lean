import LibEmbedding.TokenizerBounds
import LibEmbedding.TokenizerScan

/-!
# Encodings and batches

What `encode` cuts off and what stays around it, and how `encode_batch` lays the encodings of
its texts side by side.
-/

namespace LibEmbedding

open Foundation

namespace TokenizerWrapper

-- ---------------------------------------------------------------------------
-- The frame of an encoding
-- ---------------------------------------------------------------------------

/-- The ids between the special ones, cut to what the limit leaves room for. -/
theorem encode_framed {t : TokenizerWrapper} (hspecial : t.addSpecialTokens = true)
    (hroom : 2 ≤ t.maxLength) (text : Bytes) : t.encode text =
      t.clsTokenId :: (t.tok text).take (t.maxLength - 2) ++ [t.sepTokenId] := by
  obtain ⟨n, hn⟩ : ∃ n, t.maxLength = n + 2 := ⟨t.maxLength - 2, by omega⟩
  rw [encode_eq hspecial, truncate_sep hspecial, hn]
  rfl

/-- The tokenizer under another limit. -/
def withLimit (t : TokenizerWrapper) (limit : Nat) (h : 0 < limit) : TokenizerWrapper :=
  { t with maxLength := limit, maxLengthPos := h }

theorem withLimit_longestPiece (t : TokenizerWrapper) (h : 0 < limit) (word : Bytes)
    (start len : Nat) : (t.withLimit limit h).longestPiece word start len =
      t.longestPiece word start len := by
  induction len with
  | zero => rfl
  | succ len ih =>
    rw [longestPiece, longestPiece, ih]
    rfl

theorem withLimit_wordpieceLoop (t : TokenizerWrapper) (h : 0 < limit) (word : Bytes)
    (fuel start : Nat) (foundAny : Bool) (ids : List Int) :
    (t.withLimit limit h).wordpieceLoop word fuel start foundAny ids =
      t.wordpieceLoop word fuel start foundAny ids := by
  induction fuel generalizing start foundAny ids with
  | zero => rfl
  | succ fuel ih =>
    rw [wordpieceLoop, wordpieceLoop, withLimit_longestPiece]
    simp only [ih]
    rfl

theorem withLimit_mergeLoop (t : TokenizerWrapper) (h : 0 < limit) (fuel : Nat)
    (symbols : List Bytes) :
    (t.withLimit limit h).mergeLoop fuel symbols = t.mergeLoop fuel symbols := by
  induction fuel generalizing symbols with
  | zero => rfl
  | succ fuel ih =>
    rw [mergeLoop, mergeLoop]
    simp only [ih]
    rfl

/-- The limit plays no part before the cut. -/
theorem withLimit_tok (t : TokenizerWrapper) (h : 0 < limit) (text : Bytes) :
    (t.withLimit limit h).tok text = t.tok text := by
  have hword : (t.withLimit limit h).tokenizeWord = t.tokenizeWord := by
    funext ids word
    unfold tokenizeWord wordpieceTokenize bpeTokenize
    simp only [withLimit_wordpieceLoop, withLimit_mergeLoop]
    rfl
  rw [tok, hword]
  rfl

/-- An encoding within a limit over a vocabulary of `n` entries. -/
structure Framed (t : TokenizerWrapper) (n : Nat) (maxLength : Int) (text : Bytes) : Prop where
  short : ((t.encode text).length : Int) ≤ maxLength
  frame : ∃ between, t.encode text = t.clsTokenId :: between ++ [t.sepTokenId] ∧
    between <+: t.tok text ∧ (((t.tok text).length : Int) + 2 ≤ maxLength → between = t.tok text)
  /-- Under a limit that leaves room for them all, nothing is cut. -/
  uncut : ∀ limit (hpos : 0 < limit), (t.tok text).length + 2 ≤ limit →
    (t.withLimit limit hpos).encode text = t.clsTokenId :: t.tok text ++ [t.sepTokenId]
  below : ∀ id ∈ t.encode text, IdBelow n id

/-- A tokenizer loaded from a list, with special tokens on, encodes every text within its limit,
framed, and with ids of the list. -/
theorem loadVocab_framed {tokens : List Bytes} {padId unkId clsId sepId maxLength : Int}
    (hload : loadVocab tokens padId unkId clsId sepId maxLength true t = some u)
    (hlong : 2 ≤ maxLength) (text : Bytes) : u.Framed tokens.length maxLength text := by
  have hmax : (u.maxLength : Int) = maxLength := loadVocab_maxLength hload (by omega)
  have hspecial : u.addSpecialTokens = true := by
    obtain ⟨_, _, _, _, rfl⟩ := loadVocab_ok hload
    rfl
  have hencode := encode_framed hspecial (by omega) text
  constructor
  · have hle := u.length_encode_le text
    omega
  · refine ⟨(u.tok text).take (u.maxLength - 2), hencode, List.take_prefix _ _, fun hfits => ?_⟩
    exact List.take_of_length_le (by omega)
  · intro limit hpos hfits
    have hlimit : (u.withLimit limit hpos).maxLength = limit := rfl
    rw [encode_framed (t := u.withLimit limit hpos) hspecial (by omega), withLimit_tok, hlimit,
      List.take_of_length_le (by omega)]
    rfl
  · exact (loadVocab_idsBelow hload).encode text

theorem loadVocab_framed_sample :
    sampleWrapper.Framed 6 8 (ascii "ab ab ab ab ab") ∧
      (sampleWrapper.encode (ascii "ab ab ab ab ab")).length = 8 :=
  ⟨loadVocab_framed sampleWrapper_eq (by decide) _, by decide +kernel⟩

-- ---------------------------------------------------------------------------
-- The rows of a batch
-- ---------------------------------------------------------------------------

/-- One round of the copying loop. -/
def fillPlace (ids : List Int) (rows : List Int × List Int) (j : Nat) : List Int × List Int :=
  (rows.1.set j (ids.getD j 0), rows.2.set j 1)

/-- The ids and the mask of one text: both rows are filled up first, then the ids are copied in
as far as both the text and the row go. -/
def fillRow (ids : List Int) (seqLength : Nat) (padTokenId : Int) : List Int × List Int :=
  (List.range (min ids.length seqLength)).foldl (fillPlace ids)
    (List.replicate seqLength padTokenId, List.replicate seqLength 0)

theorem set_filled {done : List Int} {k n : Nat} (hlength : done.length = k) (hk : k < n)
    (fill x : Int) : (done ++ List.replicate (n - k) fill).set k x =
      done ++ [x] ++ List.replicate (n - (k + 1)) fill := by
  obtain ⟨m, hm⟩ : ∃ m, n - k = m + 1 := ⟨n - k - 1, by omega⟩
  have hrest : n - (k + 1) = m := by omega
  rw [hm, hrest, List.set_append_right _ _ (by omega), hlength, Nat.sub_self,
    List.replicate_succ, List.set_cons_zero, List.append_assoc, List.singleton_append]

/-- After `k` rounds the first `k` places of both rows are filled. -/
theorem fillRow_rounds (ids : List Int) (seqLength : Nat) (padTokenId : Int) {k : Nat}
    (hk : k ≤ min ids.length seqLength) :
    (List.range k).foldl (fillPlace ids)
        (List.replicate seqLength padTokenId, List.replicate seqLength 0) =
      (ids.take k ++ List.replicate (seqLength - k) padTokenId,
        List.replicate k 1 ++ List.replicate (seqLength - k) 0) := by
  induction k with
  | zero => simp
  | succ k ih =>
    have htake : (ids.take k).length = k := by
      rw [List.length_take]
      omega
    have hlt : k < seqLength := by omega
    have hmask : (List.replicate k (1 : Int)).length = k := List.length_replicate
    rw [List.range_succ, List.foldl_append, ih (by omega), List.foldl_cons, List.foldl_nil]
    rw [fillPlace, set_filled htake hlt, set_filled hmask hlt, List.take_add_one,
      List.getElem?_eq_getElem (by omega), List.getD_eq_getElem?_getD,
      List.getElem?_eq_getElem (by omega), List.replicate_succ']
    rfl

theorem fillRow_eq {ids : List Int} (h : ids.length ≤ seqLength) (padTokenId : Int) :
    fillRow ids seqLength padTokenId =
      (ids ++ List.replicate (seqLength - ids.length) padTokenId,
        List.replicate ids.length 1 ++ List.replicate (seqLength - ids.length) 0) := by
  rw [fillRow, Nat.min_eq_left h, fillRow_rounds ids seqLength padTokenId (by omega),
    List.take_length]

theorem foldl_max_mem (l : List (List Int)) (n : Nat) :
    l.foldl (fun n ids => max n ids.length) n = n ∨
      ∃ ids ∈ l, ids.length = l.foldl (fun n ids => max n ids.length) n := by
  induction l generalizing n with
  | nil => exact .inl rfl
  | cons ids l ih =>
    rcases ih (max n ids.length) with heq | ⟨longest, hmem, heq⟩
    · rcases Nat.le_total n ids.length with hle | hle
      · refine .inr ⟨ids, List.mem_cons_self, ?_⟩
        rw [List.foldl_cons, heq, Nat.max_eq_right hle]
      · refine .inl ?_
        rw [List.foldl_cons, heq, Nat.max_eq_left hle]
    · exact .inr ⟨longest, List.mem_cons_of_mem ids hmem, heq⟩

/-- The rows of a batch are the encodings of its texts, filled up to the longest. -/
structure EncodesRows (t : TokenizerWrapper) (texts : List Bytes) : Prop where
  inputIds : (t.encodeBatch texts).inputIds = texts.map fun text => t.encode text ++
    List.replicate ((t.encodeBatch texts).seqLength - (t.encode text).length) t.padTokenId
  attentionMask : (t.encodeBatch texts).attentionMask = texts.map fun text =>
    List.replicate (t.encode text).length 1 ++
      List.replicate ((t.encodeBatch texts).seqLength - (t.encode text).length) 0
  /-- These are the rows the two loops leave. -/
  filled : texts.map (fun text =>
      fillRow (t.encode text) (t.encodeBatch texts).seqLength t.padTokenId) =
    (t.encodeBatch texts).inputIds.zip (t.encodeBatch texts).attentionMask
  width : ∀ row ∈ (t.encodeBatch texts).inputIds ++ (t.encodeBatch texts).attentionMask,
    row.length = (t.encodeBatch texts).seqLength
  fits : ∀ text ∈ texts, (t.encode text).length ≤ (t.encodeBatch texts).seqLength
  longest : texts = [] ∧ (t.encodeBatch texts).seqLength = 0 ∨
    ∃ text ∈ texts, (t.encode text).length = (t.encodeBatch texts).seqLength
  limit : (t.encodeBatch texts).seqLength ≤ t.maxLength
  /-- In any other batch the text has the same row but for the padding behind it. -/
  otherBatch : ∀ (others : List Bytes) (i j : Nat) text, texts[i]? = some text →
    others[j]? = some text → ∃ n m,
      ((t.encodeBatch texts).inputIds[i]?).map (· ++ List.replicate n t.padTokenId) =
        ((t.encodeBatch others).inputIds[j]?).map (· ++ List.replicate m t.padTokenId) ∧
      ((t.encodeBatch texts).attentionMask[i]?).map (· ++ List.replicate n 0) =
        ((t.encodeBatch others).attentionMask[j]?).map (· ++ List.replicate m 0)

theorem inputIds_eq (t : TokenizerWrapper) (texts : List Bytes) :
    (t.encodeBatch texts).inputIds = texts.map fun text => t.encode text ++
      List.replicate ((t.encodeBatch texts).seqLength - (t.encode text).length) t.padTokenId := by
  have hmap : (t.encodeBatch texts).inputIds = texts.map fun text =>
      resize (t.encode text) (t.encodeBatch texts).seqLength t.padTokenId :=
    List.map_map
  rw [hmap]
  exact List.map_congr_left fun text htext =>
    resize_of_le (t.length_encode_le_seqLength htext) t.padTokenId

theorem attentionMask_eq (t : TokenizerWrapper) (texts : List Bytes) :
    (t.encodeBatch texts).attentionMask = texts.map fun text =>
      List.replicate (t.encode text).length 1 ++
        List.replicate ((t.encodeBatch texts).seqLength - (t.encode text).length) 0 := by
  have hmap : (t.encodeBatch texts).attentionMask = texts.map fun text =>
      resize (List.replicate (t.encode text).length 1) (t.encodeBatch texts).seqLength 0 :=
    List.map_map
  rw [hmap]
  refine List.map_congr_left fun text htext => ?_
  have hle := t.length_encode_le_seqLength htext
  rw [resize_of_le (by rwa [List.length_replicate]), List.length_replicate]

theorem seqLength_longest (t : TokenizerWrapper) (texts : List Bytes) :
    texts = [] ∧ (t.encodeBatch texts).seqLength = 0 ∨
      ∃ text ∈ texts, (t.encode text).length = (t.encodeBatch texts).seqLength := by
  have hseq : (t.encodeBatch texts).seqLength =
      min ((texts.map t.encode).foldl (fun n ids => max n ids.length) 0) t.maxLength := rfl
  cases texts with
  | nil => exact .inl ⟨rfl, Nat.min_eq_left (Nat.zero_le _)⟩
  | cons first texts =>
    refine .inr ?_
    have hall := le_foldl_max ((first :: texts).map t.encode) 0
    rcases foldl_max_mem ((first :: texts).map t.encode) 0 with hzero | ⟨ids, hids, hlongest⟩
    · -- All encodings are empty, the first one too.
      refine ⟨first, List.mem_cons_self, ?_⟩
      have hfirst := hall.2 _ (List.mem_map_of_mem List.mem_cons_self)
      rw [hzero] at hfirst
      rw [hseq, hzero]
      omega
    · obtain ⟨text, htext, rfl⟩ := List.mem_map.mp hids
      refine ⟨text, htext, ?_⟩
      rw [hseq, ← hlongest, Nat.min_eq_left (t.length_encode_le text)]

/-- Encoding a batch is encoding each text, filled up to the longest encoding. -/
theorem encodeBatch_rows (t : TokenizerWrapper) (texts : List Bytes) : t.EncodesRows texts where
  inputIds := t.inputIds_eq texts
  attentionMask := t.attentionMask_eq texts
  filled := by
    rw [inputIds_eq, attentionMask_eq, List.zip_map']
    exact List.map_congr_left fun text htext =>
      fillRow_eq (t.length_encode_le_seqLength htext) t.padTokenId
  width := by
    rw [List.forall_mem_append]
    exact ⟨t.length_of_mem_inputIds texts, t.length_of_mem_attentionMask texts⟩
  fits _ htext := t.length_encode_le_seqLength htext
  longest := t.seqLength_longest texts
  limit := min_le_right _ _
  otherBatch := by
    intro others i j text hi hj
    have hfits := t.length_encode_le_seqLength (List.mem_of_getElem? hi)
    have hfits' := t.length_encode_le_seqLength (List.mem_of_getElem? hj)
    -- Each row is filled up to the common width of both batches.
    let n := (t.encodeBatch texts).seqLength
    let m := (t.encodeBatch others).seqLength
    have hpadded (row : List Int) (fill : Int) (len : Nat) (hn : len ≤ n) (hm : len ≤ m) :
        row ++ List.replicate (n - len) fill ++ List.replicate m fill =
          row ++ List.replicate (m - len) fill ++ List.replicate n fill := by
      rw [List.append_assoc, List.append_assoc, List.replicate_append_replicate,
        List.replicate_append_replicate]
      congr 2
      omega
    refine ⟨m, n, ?_, ?_⟩
    · rw [inputIds_eq, inputIds_eq, List.getElem?_map, List.getElem?_map, hi, hj]
      exact congrArg some (hpadded _ _ _ hfits hfits')
    · rw [attentionMask_eq, attentionMask_eq, List.getElem?_map, List.getElem?_map, hi, hj]
      exact congrArg some (hpadded _ _ _ hfits hfits')

end TokenizerWrapper

end LibEmbedding
