import LibEmbedding.TokenizerLoad

/-!
# The two loaders give one tokenizer

A word never starts with a bracket unless it is the bracket, and a continuation
piece starts with the prefix. So encoding looks up no string such as `[PAD]`,
and two wrappers whose vocabularies differ there only encode alike.
-/

namespace LibEmbedding

open Foundation

namespace TokenizerWrapper

-- ---------------------------------------------------------------------------
-- Words
-- ---------------------------------------------------------------------------

/-- A word that starts with `[` is that byte alone. -/
def Word (w : Bytes) : Prop := ∀ rest, w = 91 :: rest → rest = []

theorem word_of_head (h : c ≠ 91) : Word (c :: rest) := by
  rintro _ ⟨⟩
  exact absurd rfl h

theorem word_singleton (c : UInt8) : Word [c] := by
  rintro rest h
  exact (List.cons.inj h).2.symm

theorem flush_words (htokens : ∀ w ∈ tokens, Word w) (hcurrent : current.head? ≠ some 91) :
    ∀ w ∈ flush tokens current, Word w := by
  unfold flush
  split
  · exact htokens
  · intro w hw
    rcases List.mem_append.mp hw with hw | hw
    · exact htokens w hw
    · cases List.mem_singleton.mp hw
      rintro rest rfl
      exact absurd rfl hcurrent

theorem append_words (htokens : ∀ w ∈ tokens, Word w) (hw : Word w) :
    ∀ x ∈ tokens ++ [w], Word x := by
  intro x hx
  rcases List.mem_append.mp hx with hx | hx
  · exact htokens x hx
  · cases List.mem_singleton.mp hx
    exact hw

theorem basicTokenizeLoop_words {s current : Bytes} (htokens : ∀ w ∈ tokens, Word w)
    (hcurrent : current.head? ≠ some 91) :
    ∀ w ∈ basicTokenizeLoop fuel s current tokens, Word w := by
  induction fuel generalizing s current tokens with
  | zero => exact flush_words htokens hcurrent
  | succ fuel ih =>
    cases s with
    | nil => exact flush_words htokens hcurrent
    | cons c rest =>
      have hflush := flush_words htokens hcurrent
      rw [basicTokenizeLoop]
      split
      · exact ih hflush (by simp)
      · split
        · exact ih (append_words hflush (word_singleton c)) (by simp)
        · rename_i hpunct
          have hc : c ≠ 91 := by
            rintro rfl
            exact hpunct (by decide)
          split
          · refine ih (append_words hflush ?_) (by simp)
            obtain ⟨n, hn⟩ : ∃ n, utf8Length c = n + 1 := by
              unfold utf8Length
              split
              · exact ⟨1, rfl⟩
              · split
                · exact ⟨2, rfl⟩
                · split <;> exact ⟨_, rfl⟩
            rw [hn, List.take_succ_cons]
            exact word_of_head hc
          · refine ih htokens ?_
            cases current with
            | nil => simpa using hc
            | cons d tail => simpa using hcurrent

theorem basicTokenize_words (text : Bytes) : ∀ w ∈ basicTokenize text, Word w :=
  basicTokenizeLoop_words (by simp) (by simp)

-- ---------------------------------------------------------------------------
-- Wrappers that encode alike
-- ---------------------------------------------------------------------------

/-- The surface forms whose vocabulary entries the two loaders may set apart. -/
def Reserved (k : Bytes) : Prop :=
  k = ascii "[PAD]" ∨ k = ascii "[UNK]" ∨ k = ascii "[CLS]" ∨ k = ascii "[SEP]"

instance (k : Bytes) : Decidable (Reserved k) := inferInstanceAs (Decidable (_ ∨ _))

theorem Reserved.eq_cons (h : Reserved k) : ∃ c rest, k = 91 :: c :: rest := by
  rcases h with rfl | rfl | rfl | rfl <;> exact ⟨_, _, rfl⟩

/-- The settings encoding reads, the vocabulary apart. -/
structure SameSettings (t u : TokenizerWrapper) : Prop where
  typeLeft : t.type = .wordpiece
  typeRight : u.type = .wordpiece
  prefixLeft : t.wpPrefix = ascii "##"
  prefixRight : u.wpPrefix = ascii "##"
  maxLength : t.maxLength = u.maxLength
  padTokenId : t.padTokenId = u.padTokenId
  clsTokenId : t.clsTokenId = u.clsTokenId
  sepTokenId : t.sepTokenId = u.sepTokenId
  unkTokenId : t.unkTokenId = u.unkTokenId
  doLowerCase : t.doLowerCase = u.doLowerCase
  addSpecialTokens : t.addSpecialTokens = u.addSpecialTokens

structure EncodesLike (t u : TokenizerWrapper) : Prop extends SameSettings t u where
  lookup : ∀ k, ¬Reserved k → t.vocab.lookup k = u.vocab.lookup k

theorem Word.not_reserved (h : Word w) : ¬Reserved w := by
  intro hr
  obtain ⟨c, rest, rfl⟩ := hr.eq_cons
  exact absurd (h _ rfl) (by simp)

theorem Word.take (h : Word w) (n : Nat) : Word (w.take n) := by
  cases w with
  | nil => simpa using h
  | cons c rest =>
    cases n with
    | zero => simp [Word]
    | succ n =>
      rintro tail heq
      obtain ⟨rfl, rfl⟩ := List.cons.inj heq
      simp [h rest rfl]

/-- No piece of a word is one of the reserved surface forms. -/
theorem piece_not_reserved {t : TokenizerWrapper} (ht : t.wpPrefix = ascii "##") (hw : Word w)
    (start len : Nat) : ¬Reserved (t.piece w start len) := by
  unfold piece
  split
  · intro hr
    obtain ⟨c, rest, heq⟩ := hr.eq_cons
    rw [ht] at heq
    exact absurd (List.cons.inj heq).1 (by decide)
  · rename_i hzero
    have hstart : start = 0 := by omega
    subst hstart
    exact (hw.take len).not_reserved

variable {t u : TokenizerWrapper}

theorem EncodesLike.piece (h : EncodesLike t u) (w : Bytes) (start len : Nat) :
    t.piece w start len = u.piece w start len := by
  simp only [TokenizerWrapper.piece, h.prefixLeft, h.prefixRight]

theorem EncodesLike.longestPiece (h : EncodesLike t u) (hw : Word w) (start len : Nat) :
    t.longestPiece w start len = u.longestPiece w start len := by
  induction len with
  | zero => rfl
  | succ len ih =>
    have hlookup := h.lookup _ (piece_not_reserved h.prefixLeft hw start (len + 1))
    rw [TokenizerWrapper.longestPiece, TokenizerWrapper.longestPiece, hlookup, h.piece, ih]

theorem EncodesLike.wordpieceLoop (h : EncodesLike t u) (hw : Word w) (fuel start : Nat)
    (foundAny : Bool) (ids : List Int) :
    t.wordpieceLoop w fuel start foundAny ids = u.wordpieceLoop w fuel start foundAny ids := by
  induction fuel generalizing start foundAny ids with
  | zero => rfl
  | succ fuel ih =>
    simp only [TokenizerWrapper.wordpieceLoop, h.longestPiece hw, h.unkTokenId]
    cases u.longestPiece w start (w.length - start) with
    | none => rfl
    | some hit => simp only [ih]

theorem EncodesLike.tokenizeWord (h : EncodesLike t u) (hw : Word w) (ids : List Int) :
    t.tokenizeWord ids w = u.tokenizeWord ids w := by
  simp only [TokenizerWrapper.tokenizeWord, h.typeLeft, h.typeRight, wordpieceTokenize,
    h.lookup w hw.not_reserved, h.wordpieceLoop hw]

theorem EncodesLike.foldl_tokenizeWord {words : List Bytes} (h : EncodesLike t u)
    (hwords : ∀ w ∈ words, Word w)
    (ids : List Int) : words.foldl t.tokenizeWord ids = words.foldl u.tokenizeWord ids := by
  induction words generalizing ids with
  | nil => rfl
  | cons w words ih =>
    rw [List.foldl_cons, List.foldl_cons, h.tokenizeWord (hwords w List.mem_cons_self),
      ih fun x hx => hwords x (List.mem_cons_of_mem w hx)]

theorem EncodesLike.encodeSingle (h : EncodesLike t u) (text : Bytes) :
    t.encodeSingle text = u.encodeSingle text := by
  simp only [TokenizerWrapper.encodeSingle, truncate, h.doLowerCase, h.addSpecialTokens,
    h.clsTokenId, h.sepTokenId, h.maxLength, h.foldl_tokenizeWord (basicTokenize_words _)]

theorem EncodesLike.encodeBatch (h : EncodesLike t u) (texts : List Bytes) :
    t.encodeBatch texts = u.encodeBatch texts := by
  have hids : texts.map t.encodeSingle = texts.map u.encodeSingle :=
    List.map_congr_left fun text _ => h.encodeSingle text
  simp only [TokenizerWrapper.encodeBatch, hids, h.maxLength, h.padTokenId]

-- ---------------------------------------------------------------------------
-- Vocabularies from lists of entries
-- ---------------------------------------------------------------------------

/-- The entries a vocabulary gets from a list of surface forms in id order. -/
def listEntries (tokens : List Bytes) : List (Bytes × Int) :=
  tokens.zipIdx.map fun e => (e.1, (e.2 : Int))

theorem listEntries_keys (tokens : List Bytes) : (listEntries tokens).map Prod.fst = tokens := by
  simp [listEntries, Function.comp_def]

def insertEntry (vocab : UMap Bytes Int) (e : Bytes × Int) : UMap Bytes Int := vocab.insert e.1 e.2

theorem lookup_insertEntry (vocab : UMap Bytes Int) (e : Bytes × Int) (k : Bytes) :
    (insertEntry vocab e).lookup k = if k = e.1 then some e.2 else vocab.lookup k := by
  split
  · rename_i h
    subst h
    exact AList.lookup_insert vocab
  · rename_i h
    exact AList.lookup_insert_ne h

/-- Inserting entries with distinct keys into an empty map: it holds just these. -/
theorem lookup_foldl_insertEntry {entries : List (Bytes × Int)}
    (h : (entries.map Prod.fst).Nodup) (vocab : UMap Bytes Int) (k : Bytes) (id : Int) :
    (entries.foldl insertEntry vocab).lookup k = some id ↔
      (k, id) ∈ entries ∨ k ∉ entries.map Prod.fst ∧ vocab.lookup k = some id := by
  induction entries generalizing vocab with
  | nil => simp
  | cons e entries ih =>
    obtain ⟨key, v⟩ := e
    simp only [List.map_cons, List.nodup_cons] at h
    rw [List.foldl_cons, ih h.2, lookup_insertEntry]
    by_cases hk : k = key
    · subst hk
      have hnot : ∀ x, (k, x) ∉ entries := fun x hx => h.1 (List.mem_map_of_mem hx)
      simp [h.1, hnot, eq_comm]
    · simp [hk]

theorem foldl_emplace (entries : List (Bytes × Nat)) (vocab : UMap Bytes Int)
    (hnodup : (entries.map Prod.fst).Nodup) (hfresh : ∀ e ∈ entries, e.1 ∉ vocab) :
    entries.foldl emplace vocab =
      (entries.map fun e => (e.1, (e.2 : Int))).foldl insertEntry vocab := by
  induction entries generalizing vocab with
  | nil => rfl
  | cons e entries ih =>
    simp only [List.map_cons, List.nodup_cons] at hnodup
    have he : emplace vocab e = insertEntry vocab (e.1, e.2) :=
      if_neg (hfresh e List.mem_cons_self)
    rw [List.map_cons, List.foldl_cons, List.foldl_cons, he]
    refine ih _ hnodup.2 fun x hx => ?_
    have hne : x.1 ≠ e.1 := fun heq => hnodup.1 (heq ▸ List.mem_map_of_mem hx)
    simp [insertEntry, hne, hfresh x (List.mem_cons_of_mem e hx)]

/-- The vocabulary of `load_vocab` holds each token with its list position. -/
theorem lookup_zipIdx_emplace {tokens : List Bytes} (h : tokens.Nodup) (k : Bytes) (id : Int) :
    (tokens.zipIdx.foldl emplace ∅).lookup k = some id ↔ (k, id) ∈ listEntries tokens := by
  have hkeys : tokens.zipIdx.map Prod.fst = tokens := by simp
  rw [foldl_emplace _ _ (by rwa [hkeys]) (by simp)]
  rw [← listEntries, lookup_foldl_insertEntry (by rwa [listEntries_keys])]
  simp

-- ---------------------------------------------------------------------------
-- What the walk over a document leaves
-- ---------------------------------------------------------------------------

theorem addToken_ok {id : Int} (h : t.addToken token id = .ok t') :
    ∃ ids, t' = { t with vocab := insertEntry t.vocab (token, id), idToToken := ids } := by
  rw [addToken, bind_ok] at h
  obtain ⟨ids, -, h⟩ := h
  cases h
  exact ⟨ids, rfl⟩

/-- The entries of a vocabulary object whose values are all numbers. -/
def itemEntries (members : List (Bytes × Json)) : List (Bytes × Int) :=
  members.map fun m => (m.1, m.2.valueint.val)

theorem loadVocabItems_ok {members : List (Bytes × Json)} (hnum : ∀ m ∈ members, isNumber m.2)
    (h : (Json.object members).children.foldlM loadVocabItem t = .ok t') :
    ∃ ids, t' = { t with vocab := (itemEntries members).foldl insertEntry t.vocab,
                         idToToken := ids } := by
  simp only [Json.children] at h
  induction members generalizing t with
  | nil =>
    cases h
    exact ⟨_, rfl⟩
  | cons m members ih =>
    simp only [List.map_cons, List.foldlM_cons, bind_ok] at h
    obtain ⟨mid, hitem, hrest⟩ := h
    simp only [loadVocabItem, if_pos (hnum m List.mem_cons_self)] at hitem
    obtain ⟨ids, rfl⟩ := addToken_ok hitem
    exact ih (fun x hx => hnum x (List.mem_cons_of_mem m hx)) hrest

def setSpecialEntry (t : TokenizerWrapper) (e : Bytes × Int) : TokenizerWrapper :=
  t.setSpecial e.1 e.2

theorem foldl_setSpecialEntry_vocab (entries : List (Bytes × Int)) (t : TokenizerWrapper)
    (vocab : UMap Bytes Int) (ids : List Bytes) :
    entries.foldl setSpecialEntry { t with vocab, idToToken := ids } =
      { entries.foldl setSpecialEntry t with vocab, idToToken := ids } := by
  induction entries generalizing t with
  | nil => rfl
  | cons e entries ih => exact ih (t.setSpecial e.1 e.2)

theorem loadAddedTokens_ok {items : List Json} (h : items.foldlM loadAddedToken t = .ok t') :
    ∃ ids, t' = { (items.filterMap addedToken).foldl setSpecialEntry t with
      vocab := (items.filterMap addedToken).foldl insertEntry t.vocab, idToToken := ids } := by
  induction items generalizing t with
  | nil =>
    cases h
    exact ⟨_, rfl⟩
  | cons item items ih =>
    simp only [List.foldlM_cons, bind_ok] at h
    obtain ⟨mid, hitem, hrest⟩ := h
    rw [loadAddedToken] at hitem
    cases hadd : addedToken item with
    | none =>
      simp only [hadd] at hitem
      cases hitem
      rw [List.filterMap_cons_none hadd]
      exact ih hrest
    | some e =>
      simp only [hadd, bind_ok] at hitem
      obtain ⟨added, htoken, hitem⟩ := hitem
      cases hitem
      obtain ⟨ids, rfl⟩ := addToken_ok htoken
      obtain ⟨ids', rfl⟩ := ih hrest
      rw [List.filterMap_cons_some hadd]
      refine ⟨ids', ?_⟩
      have hspecial : ∀ t : TokenizerWrapper, (t.setSpecial e.1 e.2) = setSpecialEntry t e :=
        fun _ => rfl
      rw [List.foldl_cons, List.foldl_cons, ← hspecial t]
      exact congrArg (fun u : TokenizerWrapper => { u with
        vocab := (items.filterMap addedToken).foldl insertEntry (insertEntry t.vocab e)
        idToToken := ids' })
        (foldl_setSpecialEntry_vocab _ (t.setSpecial e.1 e.2) (insertEntry t.vocab e) ids)

/-- The special ids are all the added tokens change beside the vocabulary. -/
theorem foldl_setSpecialEntry (entries : List (Bytes × Int)) (t : TokenizerWrapper) :
    ∃ pad unk cls sep, entries.foldl setSpecialEntry t =
      { t with padTokenId := pad, unkTokenId := unk, clsTokenId := cls, sepTokenId := sep } := by
  induction entries generalizing t with
  | nil => exact ⟨_, _, _, _, rfl⟩
  | cons e entries ih =>
    obtain ⟨pad, unk, cls, sep, h⟩ := ih (setSpecialEntry t e)
    exact ⟨pad, unk, cls, sep, h⟩

/-- An id that every matching entry sets alike ends up as that id. -/
theorem foldl_setSpecialEntry_eq {p : Bytes → Prop} [DecidablePred p]
    (field : TokenizerWrapper → Int)
    (hstep : ∀ t e, field (setSpecialEntry t e) = if p e.1 then e.2 else field t)
    {entries : List (Bytes × Int)} (hall : ∀ e ∈ entries, p e.1 → e.2 = v)
    (hex : ∃ e ∈ entries, p e.1) (t : TokenizerWrapper) :
    field (entries.foldl setSpecialEntry t) = v := by
  induction entries using List.reverseRecOn with
  | nil => simp at hex
  | append_singleton entries e ih =>
    rw [List.foldl_append, List.foldl_cons, List.foldl_nil, hstep]
    split
    · rename_i hp
      exact hall e (by simp) hp
    · rename_i hp
      refine ih (fun x hx => hall x (by simp [hx])) ?_
      obtain ⟨x, hx, hpx⟩ := hex
      rcases List.mem_append.mp hx with hx | hx
      · exact ⟨x, hx, hpx⟩
      · cases List.mem_singleton.mp hx
        exact absurd hpx hp

/-- Entries the vocabulary already has leave it as it is. -/
theorem lookup_foldl_insertEntry_of_mem {entries : List (Bytes × Int)} {vocab : UMap Bytes Int}
    (h : ∀ e ∈ entries, Reserved e.1 ∨ vocab.lookup e.1 = some e.2) (hk : ¬Reserved k) :
    (entries.foldl insertEntry vocab).lookup k = vocab.lookup k := by
  induction entries using List.reverseRecOn with
  | nil => rfl
  | append_singleton entries e ih =>
    rw [List.foldl_append, List.foldl_cons, List.foldl_nil, lookup_insertEntry,
      ih fun x hx => h x (by simp [hx])]
    split
    · rename_i heq
      subst heq
      exact ((h e (by simp)).resolve_left hk).symm
    · rfl

-- ---------------------------------------------------------------------------
-- Documents
-- ---------------------------------------------------------------------------

/-- The entries name each special token with the wrapper's id for it. -/
structure ListsSpecials (entries : List (Bytes × Int)) (t : TokenizerWrapper) : Prop where
  pad : (ascii "[PAD]", t.padTokenId) ∈ entries
  unk : (ascii "[UNK]", t.unkTokenId) ∈ entries
  cls : (ascii "[CLS]", t.clsTokenId) ∈ entries
  sep : (ascii "[SEP]", t.sepTokenId) ∈ entries
  onlyPad : ∀ e ∈ entries, e.1 = ascii "[PAD]" → e.2 = t.padTokenId
  onlyUnk : ∀ e ∈ entries, e.1 = ascii "[UNK]" → e.2 = t.unkTokenId
  onlyCls : ∀ e ∈ entries, e.1 = ascii "[CLS]" → e.2 = t.clsTokenId
  onlySep : ∀ e ∈ entries, e.1 = ascii "[SEP]" → e.2 = t.sepTokenId

/-- A WordPiece document that gives each token its list position as id, in any
order, declares a lower-casing BertNormalizer and adds the special tokens under
the ids the wrapper has. -/
structure Describes (root : Json) (tokens : List Bytes) (t : TokenizerWrapper) : Prop where
  model : ∃ model members, Json.getObjectItem (some root) (ascii "model") = some model ∧
    stringItem (some model) "type" = some (ascii "WordPiece") ∧
    Json.getObjectItem (some model) (ascii "vocab") = some (.object members) ∧
    (∀ m ∈ members, isNumber m.2) ∧ (itemEntries members).Perm (listEntries tokens)
  normalizer : ∃ n, Json.getObjectItem (some root) (ascii "normalizer") = some n ∧
    stringItem (some n) "type" = some (ascii "BertNormalizer") ∧
    (Json.getObjectItem (some n) (ascii "lowercase")).all isTrue
  added : ∃ items, Json.getObjectItem (some root) (ascii "added_tokens") = some (.array items) ∧
    ListsSpecials (items.filterMap addedToken) t

/-- The names the loader takes for the special tokens of other models. -/
def aliases : List Bytes := [ascii "<s>", ascii "</s>", ascii "<pad>", ascii "<unk>"]

/-- What the document leaves at its convention: the continuation prefix, the
padding id, and added tokens beyond the special ones. -/
structure Conventional (root : Json) (tokens : List Bytes) (t : TokenizerWrapper) : Prop where
  subwordPrefix : ∀ model, Json.getObjectItem (some root) (ascii "model") = some model →
    (stringItem (some model) "continuing_subword_prefix").getD (ascii "##") = ascii "##"
  added : ∀ items, Json.getObjectItem (some root) (ascii "added_tokens") = some (.array items) →
    ∀ e ∈ items.filterMap addedToken, Reserved e.1 ∨ e ∈ listEntries tokens ∧ e.1 ∉ aliases
  padding : ∀ id, Json.getObjectItem (Json.getObjectItem (some root) (ascii "padding"))
    (ascii "pad_id") = some id → isNumber id → id.valueint.val = t.padTokenId

/-- The vocabulary of a described document, whatever the order of its entries. -/
theorem lookup_itemEntries {members : List (Bytes × Json)} {tokens : List Bytes}
    (hnodup : tokens.Nodup) (hperm : (itemEntries members).Perm (listEntries tokens)) (k : Bytes)
    (id : Int) : ((itemEntries members).foldl insertEntry ∅).lookup k = some id ↔
      (k, id) ∈ listEntries tokens := by
  have hkeys : ((itemEntries members).map Prod.fst).Nodup := by
    rw [(hperm.map Prod.fst).nodup_iff, listEntries_keys]
    exact hnodup
  rw [lookup_foldl_insertEntry hkeys, hperm.mem_iff]
  simp

theorem loadModel_ok {root : Json} (hnew : t.vocab = ∅) (hdoc : Describes root tokens u)
    (hconv : Conventional root tokens u) (h : loadModel root t = .ok t') :
    ∃ members ids unk, (itemEntries members).Perm (listEntries tokens) ∧
      t' = { t with type := .wordpiece, wpPrefix := ascii "##", idToToken := ids, unkTokenId := unk,
                    vocab := (itemEntries members).foldl insertEntry ∅ } := by
  obtain ⟨model, members, hmodel, htype, hvocab, hnum, hperm⟩ := hdoc.model
  have hpre := hconv.subwordPrefix model hmodel
  have hname : ¬(ascii "WordPiece" = ascii "BPE" ∨ ascii "WordPiece" = ascii "bpe") := by decide
  have hmerges : ∀ u : TokenizerWrapper, u.type = .wordpiece → loadMerges model u = u := by
    intro u hu
    simp [loadMerges, hu]
  simp only [loadModel, hmodel, htype, hvocab, hpre, if_neg hname, bind_ok, pure_ok] at h
  obtain ⟨mid, hitems, h⟩ := h
  obtain ⟨ids, rfl⟩ := loadVocabItems_ok hnum hitems
  rw [hmerges _ rfl] at h
  refine ⟨members, ids, t'.unkTokenId, hperm, ?_⟩
  rw [← hnew, ← h]

theorem loadNormalizer_described {root : Json} (hdoc : Describes root tokens u)
    (t : TokenizerWrapper) : loadNormalizer root t = { t with doLowerCase := true } := by
  obtain ⟨n, hn, htype, hlower⟩ := hdoc.normalizer
  simp [loadNormalizer, hn, htype, hlower]

theorem loadPostProcessor_eq (root : Json) (h : t.addSpecialTokens = true) :
    loadPostProcessor root t = t := by
  simp only [loadPostProcessor]
  split
  · rw [← h]
  · rfl

theorem loadPadding_eq {root : Json} (h : ∀ id, Json.getObjectItem (Json.getObjectItem (some root)
    (ascii "padding")) (ascii "pad_id") = some id → isNumber id → id.valueint.val = t.padTokenId) :
    loadPadding root t = t := by
  unfold loadPadding
  split
  · rename_i id hid
    split
    · rename_i hnum
      rw [h id hid hnum]
    · rfl
  · rfl

/-- The special ids after the added tokens are the listed ones. -/
theorem specials_eq {entries : List (Bytes × Int)} (hlist : ListsSpecials entries u)
    (hrest : ∀ e ∈ entries, Reserved e.1 ∨ e ∈ listEntries tokens ∧ e.1 ∉ aliases)
    (t : TokenizerWrapper) :
    (entries.foldl setSpecialEntry t).padTokenId = u.padTokenId ∧
    (entries.foldl setSpecialEntry t).unkTokenId = u.unkTokenId ∧
    (entries.foldl setSpecialEntry t).clsTokenId = u.clsTokenId ∧
    (entries.foldl setSpecialEntry t).sepTokenId = u.sepTokenId := by
  have hno : ∀ e ∈ entries, e.1 ∉ aliases := by
    intro e he
    rcases hrest e he with hr | hr
    · rcases hr with hr | hr | hr | hr <;> rw [hr] <;> decide
    · exact hr.2
  have hnot : ∀ e ∈ entries, ∀ name ∈ aliases, e.1 ≠ name := fun e he name hname heq =>
    hno e he (heq ▸ hname)
  refine ⟨foldl_setSpecialEntry_eq (p := fun k => k = ascii "[PAD]" ∨ k = ascii "<pad>") _
    (fun _ _ => rfl) ?_ ⟨_, hlist.pad, .inl rfl⟩ t,
    foldl_setSpecialEntry_eq (p := fun k => k = ascii "[UNK]" ∨ k = ascii "<unk>") _
    (fun _ _ => rfl) ?_ ⟨_, hlist.unk, .inl rfl⟩ t,
    foldl_setSpecialEntry_eq (p := fun k => k = ascii "[CLS]" ∨ k = ascii "<s>") _
    (fun _ _ => rfl) ?_ ⟨_, hlist.cls, .inl rfl⟩ t,
    foldl_setSpecialEntry_eq (p := fun k => k = ascii "[SEP]" ∨ k = ascii "</s>") _
    (fun _ _ => rfl) ?_ ⟨_, hlist.sep, .inl rfl⟩ t⟩
  · exact fun e he h => hlist.onlyPad e he (h.resolve_right (hnot e he _ (by simp [aliases])))
  · exact fun e he h => hlist.onlyUnk e he (h.resolve_right (hnot e he _ (by simp [aliases])))
  · exact fun e he h => hlist.onlyCls e he (h.resolve_right (hnot e he _ (by simp [aliases])))
  · exact fun e he h => hlist.onlySep e he (h.resolve_right (hnot e he _ (by simp [aliases])))

theorem loadVocab_ok {padId unkId clsId sepId maxLength : Int} {add : Bool}
    (h : loadVocab tokens padId unkId clsId sepId maxLength add t = some u) :
    ∃ pad unk cls sep, u = { t with
      vocab := tokens.zipIdx.foldl emplace ∅
      idToToken := tokens
      type := .wordpiece
      wpPrefix := ascii "##"
      doLowerCase := true
      addSpecialTokens := add
      maxLength := if 0 < maxLength then maxLength.toNat else 512
      maxLengthPos := loadedMaxLength_pos maxLength
      padTokenId := pad, unkTokenId := unk, clsTokenId := cls, sepTokenId := sep } := by
  unfold loadVocab at h
  split at h
  · cases h
  · cases h
    exact ⟨_, _, _, _, rfl⟩

/-- A wrapper loaded from a document encodes like the one loaded from the list the
document describes. -/
theorem loadFromTree_encodesLike {root : Json} {maxLength : Nat} (hmax : 0 < maxLength)
    (hnodup : tokens.Nodup)
    (hlist : loadVocab tokens padId unkId clsId sepId maxLength true new = some t)
    (hdoc : Describes root tokens t) (hconv : Conventional root tokens t)
    (htree : loadFromTree root { new with maxLength, maxLengthPos := hmax } = .ok u) :
    EncodesLike t u := by
  obtain ⟨items, hitems, hspecials⟩ := hdoc.added
  have hrest := hconv.added items hitems
  simp only [loadFromTree, bind_ok, pure_ok] at htree
  obtain ⟨tm, hmodel, ta, hadded, rfl⟩ := htree
  obtain ⟨members, ids, unk, hperm, rfl⟩ := loadModel_ok rfl hdoc hconv hmodel
  rw [loadNormalizer_described hdoc, loadPostProcessor_eq root rfl] at hadded
  simp only [loadAddedTokens, hitems] at hadded
  obtain ⟨ids', rfl⟩ := loadAddedTokens_ok hadded
  let start : TokenizerWrapper := { new with
    maxLength, maxLengthPos := hmax
    type := .wordpiece, wpPrefix := ascii "##", idToToken := ids, unkTokenId := unk
    vocab := (itemEntries members).foldl insertEntry ∅ }
  obtain ⟨hpad, hunk, hcls, hsep⟩ := specials_eq hspecials hrest start
  obtain ⟨pad', unk', cls', sep', hfold⟩ :=
    foldl_setSpecialEntry (items.filterMap addedToken) start
  rw [hfold] at hpad hunk hcls hsep
  change EncodesLike t (loadPadding root { (items.filterMap addedToken).foldl setSpecialEntry start
    with vocab := (items.filterMap addedToken).foldl insertEntry start.vocab, idToToken := ids' })
  rw [hfold, loadPadding_eq]
  swap
  · exact fun id hid hnum => (hconv.padding id hid hnum).trans hpad.symm
  obtain ⟨_, _, _, _, ht⟩ := loadVocab_ok hlist
  have hlength : t.maxLength = maxLength := by
    rw [ht]
    simp [hmax]
  have hvocab : t.vocab = tokens.zipIdx.foldl emplace ∅ := by rw [ht]
  have hlookup : ∀ k, start.vocab.lookup k = t.vocab.lookup k := by
    intro k
    rw [hvocab]
    apply Option.ext
    intro v
    rw [lookup_zipIdx_emplace hnodup, ← lookup_itemEntries hnodup hperm]
  have hpresent : ∀ e ∈ items.filterMap addedToken,
      Reserved e.1 ∨ start.vocab.lookup e.1 = some e.2 := fun e he =>
    (hrest e he).imp_right fun h => (lookup_itemEntries hnodup hperm e.1 e.2).mpr h.1
  refine ⟨⟨by rw [ht], rfl, by rw [ht], rfl, hlength, hpad.symm, hcls.symm, hsep.symm, hunk.symm,
    by rw [ht]; rfl, by rw [ht]; rfl⟩, ?_⟩
  intro k hk
  exact (hlookup k).symm.trans (lookup_foldl_insertEntry_of_mem hpresent hk).symm

/-- Whenever the document loads too, it encodes every text and every batch like the
wrapper loaded from the list. -/
def LoadersAgree (codec : Cjson Text) (blob : Text) (maxLength : Nat) (t : TokenizerWrapper) :
    Prop :=
  ∀ (h : 0 < maxLength) (u : TokenizerWrapper),
    loadFromBlob codec blob maxLength h new = .ok (.returned u) →
    (∀ text, t.encode text = u.encode text) ∧ ∀ texts, t.encodeBatch texts = u.encodeBatch texts

/-- A conventional document and the list it describes load to wrappers that encode
every text and every batch to the same ids, masks and lengths. -/
theorem conventional_loaders_agree (codec : Cjson Text) {blob : Text} {root : Json}
    {tokens : List Bytes} {padId unkId clsId sepId : Int} {maxLength : Nat}
    (hparse : codec.parse blob = some root) (hnodup : tokens.Nodup)
    (hlist : loadVocab tokens padId unkId clsId sepId maxLength true new = some t)
    (hdoc : Describes root tokens t) (hconv : Conventional root tokens t) :
    LoadersAgree codec blob maxLength t := by
  intro hmax u hload
  simp only [loadFromBlob, hparse, bind_ok, pure_ok] at hload
  obtain ⟨u', htree, hu⟩ := hload
  cases hu
  have h := loadFromTree_encodesLike hmax hnodup hlist hdoc hconv htree
  exact ⟨h.encodeSingle, h.encodeBatch⟩

def sampleTokens : List Bytes :=
  [ascii "[PAD]", ascii "[UNK]", ascii "[CLS]", ascii "[SEP]", ascii "a", ascii "##b"]

/-- A document of the sample tokens, its vocabulary in another order, with a
continuation prefix of its own. -/
def sampleDocument (subwordPrefix : Bytes) : Json :=
  let special (content : String) (id : Nat) : Json :=
    .object [(ascii "id", .number id), (ascii "content", .string (ascii content))]
  .object [
    (ascii "added_tokens", .array [
      special "[PAD]" 0, special "[UNK]" 1, special "[CLS]" 2, special "[SEP]" 3]),
    (ascii "normalizer", .object [
      (ascii "type", .string (ascii "BertNormalizer")), (ascii "lowercase", .bool true)]),
    (ascii "model", .object [
      (ascii "type", .string (ascii "WordPiece")),
      (ascii "continuing_subword_prefix", .string subwordPrefix),
      (ascii "vocab", .object [
        (ascii "a", .number 4), (ascii "##b", .number 5), (ascii "[CLS]", .number 2),
        (ascii "[PAD]", .number 0), (ascii "[SEP]", .number 3), (ascii "[UNK]", .number 1)])])]

/-- The wrapper loaded from the sample tokens. -/
def sampleWrapper : TokenizerWrapper :=
  (loadVocab sampleTokens 0 1 2 3 8 true new).getD new

theorem sampleWrapper_eq :
    loadVocab sampleTokens 0 1 2 3 (8 : Nat) true new = some sampleWrapper := rfl

theorem describes_sampleDocument (subwordPrefix : Bytes) :
    Describes (sampleDocument subwordPrefix) sampleTokens sampleWrapper where
  model := ⟨_, _, rfl, rfl, rfl, by decide, by decide⟩
  normalizer := ⟨_, rfl, rfl, rfl⟩
  added := ⟨_, rfl, by constructor <;> decide⟩

theorem conventional_sampleDocument :
    Conventional (sampleDocument (ascii "##")) sampleTokens sampleWrapper where
  subwordPrefix := by
    rintro model ⟨⟩
    rfl
  added := by
    rintro items ⟨⟩
    decide
  padding := by
    rintro id ⟨⟩

/-- Both sample loads succeed and split `ab` into its two pieces. -/
theorem conventional_loaders_agree_sample :
    (loadFromBlob treeCodec (some (sampleDocument (ascii "##"))) 8 (by decide) new).map
      (fun r => match r with | .returned u => some (u.encode (ascii "ab")) | .threw => none) =
        .ok (some [2, 4, 5, 3]) ∧
    LoadersAgree treeCodec (some (sampleDocument (ascii "##"))) 8 sampleWrapper :=
  ⟨by decide +kernel, conventional_loaders_agree treeCodec rfl (by decide) sampleWrapper_eq
    (describes_sampleDocument _) conventional_sampleDocument⟩

/-- A document whose continuation pieces start with another prefix than the list's:
it drops the second piece of `ab`. -/
theorem foreign_prefix_disagrees :
    Describes (sampleDocument (ascii "@@")) sampleTokens sampleWrapper ∧
      ¬LoadersAgree treeCodec (some (sampleDocument (ascii "@@"))) 8 sampleWrapper := by
  refine ⟨describes_sampleDocument _, fun h => ?_⟩
  have hload : ((loadFromBlob treeCodec (some (sampleDocument (ascii "@@"))) 8 (by decide) new).map
      fun r => match r with | .returned u => some (u.encode (ascii "ab")) | .threw => none) =
        .ok (some [2, 4, 3]) := by decide +kernel
  obtain ⟨r, hr, henc⟩ := map_ok.mp hload
  cases r with
  | threw => cases henc
  | returned u =>
    have hagree := (h (by decide) u hr).1 (ascii "ab")
    have hsample : sampleWrapper.encode (ascii "ab") = [2, 4, 5, 3] := by decide +kernel
    rw [hsample] at hagree
    exact absurd (Option.some.inj henc) (by rw [← hagree]; decide)

end TokenizerWrapper

end LibEmbedding
