import LibEmbedding.TokenizerAgree

/-!
# The ids a tokenizer emits

A vocabulary loaded from a list yields the positions of the list, and so do the special
ids, so every id of an encoded text is one of them.
-/

namespace LibEmbedding

open Foundation

/-- The ids of a vocabulary with `n` entries. -/
def IdBelow (n : Nat) (id : Int) : Prop := 0 ≤ id ∧ id < n

/-- Everything a wrapper can emit is an id of a vocabulary with `n` entries. -/
structure TokenizerWrapper.IdsBelow (t : TokenizerWrapper) (n : Nat) : Prop where
  vocab : ∀ k id, t.vocab.lookup k = some id → IdBelow n id
  pad : IdBelow n t.padTokenId
  unk : IdBelow n t.unkTokenId
  cls : IdBelow n t.clsTokenId
  sep : IdBelow n t.sepTokenId

namespace TokenizerWrapper

-- ---------------------------------------------------------------------------
-- Encoding
-- ---------------------------------------------------------------------------

theorem mem_append_singleton {P : Int → Prop} {ids : List Int} {added : Int}
    (hids : ∀ id ∈ ids, P id) (h : P added) : ∀ id ∈ ids ++ [added], P id := by
  intro id hid
  rcases List.mem_append.mp hid with hid | hid
  · exact hids id hid
  · rwa [List.mem_singleton.mp hid]

theorem longestPiece_lookup {word : Bytes} {id : Int}
    (h : longestPiece t word start len = some (id, stop)) :
    ∃ k, t.vocab.lookup k = some id := by
  induction len with
  | zero => cases h
  | succ len ih =>
    unfold longestPiece at h
    split at h
    · rename_i found hfound
      cases h
      exact ⟨_, hfound⟩
    · exact ih h

namespace IdsBelow

variable {t : TokenizerWrapper} (h : t.IdsBelow n)

include h

theorem wordpieceLoop {word : Bytes} (hids : ∀ id ∈ ids, IdBelow n id) :
    ∀ id ∈ t.wordpieceLoop word fuel start foundAny ids, IdBelow n id := by
  induction fuel generalizing start foundAny ids with
  | zero => exact hids
  | succ fuel ih =>
    unfold TokenizerWrapper.wordpieceLoop
    split
    · split
      · rename_i id stop hpiece
        obtain ⟨k, hk⟩ := longestPiece_lookup hpiece
        exact ih (mem_append_singleton hids (h.vocab k id hk))
      · split
        · exact hids
        · exact mem_append_singleton hids h.unk
    · exact hids

theorem wordpieceTokenize (word : Bytes) (hids : ∀ id ∈ ids, IdBelow n id) :
    ∀ id ∈ t.wordpieceTokenize word ids, IdBelow n id := by
  unfold TokenizerWrapper.wordpieceTokenize
  split
  · exact hids
  · split
    · rename_i id hlookup
      exact mem_append_singleton hids (h.vocab word id hlookup)
    · exact h.wordpieceLoop hids

theorem bpeTokenize (word : Bytes) (hids : ∀ id ∈ ids, IdBelow n id) :
    ∀ id ∈ t.bpeTokenize word ids, IdBelow n id := by
  intro id hid
  rcases List.mem_append.mp hid with hid | hid
  · exact hids id hid
  · obtain ⟨sym, -, rfl⟩ := List.mem_map.mp hid
    cases hlookup : t.vocab.lookup sym with
    | none => exact h.unk
    | some id => exact h.vocab sym id hlookup

theorem tokenizeWord (word : Bytes) (hids : ∀ id ∈ ids, IdBelow n id) :
    ∀ id ∈ t.tokenizeWord ids word, IdBelow n id := by
  unfold TokenizerWrapper.tokenizeWord
  split
  · exact h.wordpieceTokenize word hids
  · exact h.bpeTokenize word hids

theorem foldl_tokenizeWord (words : List Bytes) (hids : ∀ id ∈ ids, IdBelow n id) :
    ∀ id ∈ words.foldl t.tokenizeWord ids, IdBelow n id := by
  induction words generalizing ids with
  | nil => exact hids
  | cons word words ih => exact ih (h.tokenizeWord word hids)

theorem truncate (hids : ∀ id ∈ ids, IdBelow n id) : ∀ id ∈ t.truncate ids, IdBelow n id := by
  have htake : ∀ id ∈ ids.take t.maxLength, IdBelow n id :=
    fun id hid => hids id (List.mem_of_mem_take hid)
  unfold TokenizerWrapper.truncate
  split
  · dsimp only
    split
    · exact mem_append_singleton (fun id hid => htake id (List.mem_of_mem_dropLast hid)) h.sep
    · exact htake
  · exact hids

/-- Every id of an encoded text is one of the vocabulary. -/
theorem encode (text : Bytes) : ∀ id ∈ t.encode text, IdBelow n id := by
  have hstart : ∀ id ∈ if t.addSpecialTokens then [t.clsTokenId] else [], IdBelow n id := by
    split
    · exact fun id hid => (List.mem_singleton.mp hid) ▸ h.cls
    · simp
  have hclosed {ids : List Int} (hids : ∀ id ∈ ids, IdBelow n id) :
      ∀ id ∈ if t.addSpecialTokens then ids ++ [t.sepTokenId] else ids, IdBelow n id := by
    split
    · exact mem_append_singleton hids h.sep
    · exact hids
  exact h.truncate (hclosed (h.foldl_tokenizeWord _ hstart))

/-- The rows of a batch hold ids of the vocabulary only, padding included. -/
theorem encodeBatch (texts : List Bytes) :
    ∀ row ∈ (t.encodeBatch texts).inputIds, ∀ id ∈ row, IdBelow n id := by
  intro row hrow id hid
  simp only [TokenizerWrapper.encodeBatch, List.map_map, List.mem_map, Function.comp] at hrow
  obtain ⟨text, -, rfl⟩ := hrow
  rcases List.mem_append.mp hid with hid | hid
  · exact h.encode text id (List.mem_of_mem_take hid)
  · exact (List.eq_of_mem_replicate hid) ▸ h.pad

end IdsBelow

-- ---------------------------------------------------------------------------
-- Long texts
-- ---------------------------------------------------------------------------

/-- A text of `n` exclamation marks, each of them a word. -/
def marks (n : Nat) : Bytes := List.replicate n 33

theorem bertNormalizeLoop_marks (fuel n : Nat) (h : n ≤ fuel) :
    bertNormalizeLoop fuel (marks n) = marks n := by
  induction fuel generalizing n with
  | zero =>
    obtain rfl := Nat.le_zero.mp h
    rfl
  | succ fuel ih =>
    cases n with
    | zero => rfl
    | succ n =>
      rw [marks, List.replicate_succ]
      exact congrArg (33 :: ·) (ih n (Nat.le_of_succ_le_succ h))

theorem basicTokenizeLoop_marks (fuel n : Nat) (h : n ≤ fuel) (tokens : List Bytes) :
    basicTokenizeLoop fuel (marks n) [] tokens = tokens ++ List.replicate n [33] := by
  induction fuel generalizing n tokens with
  | zero =>
    obtain rfl := Nat.le_zero.mp h
    simp [basicTokenizeLoop, flush]
  | succ fuel ih =>
    cases n with
    | zero => simp [marks, basicTokenizeLoop, flush]
    | succ n =>
      have htail := ih n (Nat.le_of_succ_le_succ h) (tokens ++ [[33]])
      rw [List.append_assoc, List.singleton_append, ← List.replicate_succ] at htail
      exact htail

/-- A word that is a single mark gives one id. -/
theorem length_tokenizeWord_mark (t : TokenizerWrapper) (ids : List Int) :
    (t.tokenizeWord ids [33]).length = ids.length + 1 := by
  unfold tokenizeWord
  split
  · unfold wordpieceTokenize
    rw [if_neg (List.cons_ne_nil _ _)]
    split
    · simp
    · have hstart : 0 < [(33 : UInt8)].length := Nat.one_pos
      show (t.wordpieceLoop [33] 1 0 false ids).length = ids.length + 1
      rw [wordpieceLoop, if_pos hstart]
      split <;> simp [wordpieceLoop]
  · simp [bpeTokenize, symbolsLoop, mergeLoop, utf8Length]

theorem length_foldl_marks (t : TokenizerWrapper) (n : Nat) (ids : List Int) :
    ((List.replicate n [33]).foldl t.tokenizeWord ids).length = ids.length + n := by
  induction n generalizing ids with
  | zero => rfl
  | succ n ih =>
    rw [List.replicate_succ, List.foldl_cons, ih, length_tokenizeWord_mark, Nat.add_right_comm,
      Nat.add_assoc]

theorem length_truncate_of_le (t : TokenizerWrapper) {ids : List Int}
    (h : t.maxLength ≤ ids.length) : (t.truncate ids).length = t.maxLength := by
  have hpos := t.maxLengthPos
  have htake : (ids.take t.maxLength).length = t.maxLength := by
    rw [List.length_take, Nat.min_eq_left h]
  unfold truncate
  split
  · dsimp only
    split
    · rw [List.length_append, List.length_dropLast, htake, List.length_singleton,
        Nat.sub_add_cancel hpos]
    · exact htake
  · exact le_antisymm (not_lt.mp ‹_›) h

/-- A text may fill a sequence of the greatest length. -/
theorem length_encode_marks (t : TokenizerWrapper) :
    (t.encode (marks t.maxLength)).length = t.maxLength := by
  have hwords : basicTokenize (if t.doLowerCase then bertNormalize (marks t.maxLength)
      else marks t.maxLength) = List.replicate t.maxLength [33] := by
    have hlength : (marks t.maxLength).length = t.maxLength := List.length_replicate
    have hnormal : (if t.doLowerCase then bertNormalize (marks t.maxLength)
        else marks t.maxLength) = marks t.maxLength := by
      split
      · rw [bertNormalize, hlength, bertNormalizeLoop_marks _ _ le_rfl]
      · rfl
    rw [hnormal, basicTokenize, hlength, basicTokenizeLoop_marks _ _ le_rfl, List.nil_append]
  refine t.length_truncate_of_le ?_
  rw [hwords]
  split
  · rw [List.length_append, length_foldl_marks]
    omega
  · rw [length_foldl_marks]
    omega

theorem seqLength_marks (t : TokenizerWrapper) :
    (t.encodeBatch [marks t.maxLength]).seqLength = t.maxLength := by
  have hle := t.length_encode_le_seqLength (List.mem_singleton_self (marks t.maxLength))
  rw [length_encode_marks] at hle
  exact le_antisymm (min_le_right ..) hle

-- ---------------------------------------------------------------------------
-- Loading
-- ---------------------------------------------------------------------------

theorem lookup_emplace {vocab : UMap Bytes Int} {id : Int} (h : (emplace vocab e).lookup k = some id) :
    vocab.lookup k = some id ∨ id = e.2 := by
  unfold emplace at h
  split at h
  · exact .inl h
  · by_cases hk : k = e.1
    · subst hk
      rw [AList.lookup_insert] at h
      exact .inr (Option.some.inj h).symm
    · rw [AList.lookup_insert_ne hk] at h
      exact .inl h

theorem lookup_foldl_emplace {entries : List (Bytes × Nat)} {vocab : UMap Bytes Int}
    (hvocab : ∀ k id, vocab.lookup k = some id → IdBelow n id) (hentries : ∀ e ∈ entries, e.2 < n) :
    ∀ k id, (entries.foldl emplace vocab).lookup k = some id → IdBelow n id := by
  induction entries generalizing vocab with
  | nil => exact hvocab
  | cons e entries ih =>
    refine ih (fun k id hk => ?_) fun x hx => hentries x (List.mem_cons_of_mem e hx)
    rcases lookup_emplace hk with hk | rfl
    · exact hvocab k id hk
    · exact ⟨Int.natCast_nonneg e.2, Int.ofNat_lt.mpr (hentries e List.mem_cons_self)⟩

/-- The last resort of a special id exists in every vocabulary that is not empty. -/
theorem resolveSpecial_below (t : TokenizerWrapper) (hne : t.idToToken ≠ [])
    (hvocab : ∀ k id, t.vocab.lookup k = some id → IdBelow t.idToToken.length id)
    (explicitId : Int) (surface : String) (fallbackId : Int) :
    IdBelow t.idToToken.length (t.resolveSpecial explicitId surface fallbackId) := by
  unfold resolveSpecial
  dsimp only
  split
  · assumption
  · split
    · rename_i id hlookup
      exact hvocab _ id hlookup
    · split
      · assumption
      · exact ⟨le_rfl, Int.ofNat_lt.mpr (List.length_pos_of_ne_nil hne)⟩

theorem loadVocab_idsBelow {padId unkId clsId sepId maxLength : Int}
    (h : loadVocab tokens padId unkId clsId sepId maxLength add t = some u) :
    u.IdsBelow tokens.length := by
  have hvocab : ∀ k id, (tokens.zipIdx.foldl emplace ∅).lookup k = some id →
      IdBelow tokens.length id := by
    refine lookup_foldl_emplace (by simp) fun e he => ?_
    exact (List.mem_zipIdx' he).1
  unfold loadVocab at h
  split at h
  · cases h
  · rename_i hne
    cases h
    exact {
      vocab := hvocab
      pad := resolveSpecial_below _ hne hvocab ..
      unk := resolveSpecial_below _ hne hvocab ..
      cls := resolveSpecial_below _ hne hvocab ..
      sep := resolveSpecial_below _ hne hvocab .. }

theorem loadVocab_maxLength {padId unkId clsId sepId maxLength : Int}
    (h : loadVocab tokens padId unkId clsId sepId maxLength add t = some u) (hpos : 0 < maxLength) :
    (u.maxLength : Int) = maxLength := by
  obtain ⟨_, _, _, _, rfl⟩ := loadVocab_ok h
  simp [hpos, hpos.le]

theorem loadVocab_total (h : tokens ≠ []) (padId unkId clsId sepId maxLength : Int) (add : Bool)
    (t : TokenizerWrapper) :
    ∃ u, loadVocab tokens padId unkId clsId sepId maxLength add t = some u :=
  ⟨_, if_neg h⟩

end TokenizerWrapper

end LibEmbedding
