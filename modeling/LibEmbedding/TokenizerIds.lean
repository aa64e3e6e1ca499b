import LibEmbedding.TokenizerLoad

/-!
# Tokens and their ids

`load_from_blob` grows `id_to_token_` while it walks the vocabulary and the added tokens. An id
below zero is never checked, so the write is inside the vector as long as every id of the document
is one that a vector can have.
-/

namespace LibEmbedding

open Foundation

namespace TokenizerWrapper

/-- The token and id of a member of the vocabulary that has both. -/
def vocabToken (item : Option Bytes × Json) : Option (Bytes × Int) :=
  item.1.bind fun token => if isNumber item.2 then some (token, item.2.valueint.val) else none

/-- The members of the vocabulary. -/
def vocabItems (root : Json) : List (Option Bytes × Json) :=
  (Json.getObjectItem (Json.getObjectItem (some root) (ascii "model")) (ascii "vocab")).elim []
    Json.children

def addedItems (root : Json) : List Json :=
  match Json.getObjectItem (some root) (ascii "added_tokens") with
  | some (.array items) => items
  | _ => []

/-- The ids that a document gives, in the order in which it gives them. -/
def givenIds (root : Json) : List (Bytes × Int) :=
  (vocabItems root).filterMap vocabToken ++ (addedItems root).filterMap addedToken

/-- The two maps of a wrapper. -/
def idMaps (t : TokenizerWrapper) : UMap Bytes Int × List Bytes := (t.vocab, t.idToToken)

def giveId (maps : UMap Bytes Int × List Bytes) (given : Bytes × Int) :
    Checked (UMap Bytes Int × List Bytes) := do
  let idToToken ← setToken maps.2 given.2 given.1
  return (maps.1.insert given.1 given.2, idToToken)

-- ---------------------------------------------------------------------------
-- The walk gives ids one after another
-- ---------------------------------------------------------------------------

/-- A walk that does something for the items that have an entry, seen through what it changes. -/
theorem foldlM_entries {body : σ → α → Except ε σ} {entry : α → Option β} {view : σ → τ}
    {step : τ → β → Except ε τ}
    (h : ∀ s x, (body s x).map view = (entry x).elim (.ok (view s)) (step (view s)))
    (xs : List α) (s : σ) :
    (xs.foldlM body s).map view = (xs.filterMap entry).foldlM step (view s) := by
  induction xs generalizing s with
  | nil => rfl
  | cons x xs ih =>
    have hx := h s x
    rw [List.foldlM_cons]
    cases hentry : entry x with
    | none =>
      rw [hentry, Option.elim_none, map_ok] at hx
      obtain ⟨t, ht, hview⟩ := hx
      rw [List.filterMap_cons_none hentry, ht, ok_bind, ih, hview]
    | some e =>
      rw [hentry, Option.elim_some] at hx
      rw [List.filterMap_cons_some hentry, List.foldlM_cons, ← hx]
      cases body s x with
      | error _ => rfl
      | ok t => exact ih t

theorem addToken_maps (t : TokenizerWrapper) (given : Bytes × Int) :
    (t.addToken given.1 given.2).map idMaps = giveId t.idMaps given := by
  unfold addToken giveId
  show (setToken t.idToToken given.2 given.1 >>= _).map idMaps =
    setToken t.idToToken given.2 given.1 >>= _
  cases setToken t.idToToken given.2 given.1 <;> rfl

theorem loadVocabItem_maps (t : TokenizerWrapper) (item : Option Bytes × Json) :
    (loadVocabItem t item).map idMaps =
      (vocabToken item).elim (.ok t.idMaps) (giveId t.idMaps) := by
  obtain ⟨name, value⟩ := item
  cases name with
  | none => rfl
  | some token =>
    unfold loadVocabItem vocabToken
    dsimp only [Option.bind_some]
    split
    · exact addToken_maps t (token, value.valueint.val)
    · rfl

theorem loadAddedToken_maps (t : TokenizerWrapper) (item : Json) :
    (loadAddedToken t item).map idMaps =
      (addedToken item).elim (.ok t.idMaps) (giveId t.idMaps) := by
  unfold loadAddedToken
  cases haddedToken : addedToken item with
  | none => rfl
  | some given =>
    rw [Option.elim_some, ← addToken_maps]
    dsimp only
    cases t.addToken given.1 given.2 <;> rfl

theorem loadVocabItems_maps (items : List (Option Bytes × Json)) (t : TokenizerWrapper) :
    (items.foldlM loadVocabItem t).map idMaps =
      (items.filterMap vocabToken).foldlM giveId t.idMaps :=
  foldlM_entries loadVocabItem_maps items t

theorem loadMerge_maps (merges : List (Json × Nat)) (t : TokenizerWrapper) :
    (merges.foldl loadMerge t).idMaps = t.idMaps := by
  induction merges generalizing t with
  | nil => rfl
  | cons merge merges ih =>
    rw [List.foldl_cons, ih]
    unfold loadMerge
    split <;> rfl

theorem loadMerges_maps (model : Json) (t : TokenizerWrapper) :
    (loadMerges model t).idMaps = t.idMaps := by
  unfold loadMerges
  split
  · exact loadMerge_maps _ t
  · rfl

/-- A last step that leaves the maps alone. -/
theorem bind_maps {x : Checked TokenizerWrapper} {f : TokenizerWrapper → TokenizerWrapper}
    (h : ∀ t, (f t).idMaps = t.idMaps) :
    (x >>= fun t => pure (f t)).map idMaps = x.map idMaps := by
  cases x with
  | error e => rfl
  | ok t => exact congrArg Except.ok (h t)

theorem loadModel_maps (root : Json) (t : TokenizerWrapper) :
    (loadModel root t).map idMaps =
      ((vocabItems root).filterMap vocabToken).foldlM giveId t.idMaps := by
  unfold loadModel vocabItems
  cases Json.getObjectItem (some root) (ascii "model") with
  | none => rfl
  | some model =>
    dsimp only
    cases Json.getObjectItem (some model) (ascii "vocab") with
    | none =>
      refine Eq.trans (bind_maps fun u => loadMerges_maps model u) ?_
      split <;> rfl
    | some vocab =>
      refine Eq.trans (bind_maps fun u => loadMerges_maps model u) ?_
      rw [loadVocabItems_maps]
      split <;> rfl

theorem loadAddedTokens_maps (root : Json) (t : TokenizerWrapper) :
    (loadAddedTokens root t).map idMaps =
      ((addedItems root).filterMap addedToken).foldlM giveId t.idMaps := by
  unfold loadAddedTokens addedItems
  cases Json.getObjectItem (some root) (ascii "added_tokens") with
  | none => rfl
  | some added =>
    cases added with
    | array items => exact foldlM_entries loadAddedToken_maps items t
    | _ => rfl

theorem loadNormalizer_maps (root : Json) (t : TokenizerWrapper) :
    (loadNormalizer root t).idMaps = t.idMaps := by
  unfold loadNormalizer
  repeat' split
  all_goals rfl

theorem loadPostProcessor_maps (root : Json) (t : TokenizerWrapper) :
    (loadPostProcessor root t).idMaps = t.idMaps := by
  unfold loadPostProcessor
  dsimp only
  split <;> rfl

theorem loadPadding_maps (root : Json) (t : TokenizerWrapper) :
    (loadPadding root t).idMaps = t.idMaps := by
  unfold loadPadding
  repeat' split
  all_goals rfl

/-- All that the walk does to the two maps. -/
theorem loadFromTree_maps (root : Json) (t : TokenizerWrapper) :
    (loadFromTree root t).map idMaps = (givenIds root).foldlM giveId t.idMaps := by
  rw [givenIds, List.foldlM_append, ← loadModel_maps root t, loadFromTree]
  cases loadModel root t with
  | error e => rfl
  | ok u =>
    refine Eq.trans (bind_maps fun v => loadPadding_maps root v) ?_
    rw [loadAddedTokens_maps, loadPostProcessor_maps, loadNormalizer_maps]
    rfl

-- ---------------------------------------------------------------------------
-- One id
-- ---------------------------------------------------------------------------

/-- The vector with room for an id. -/
def growTo (tokens : List Bytes) (id : Int) : Checked (List Bytes) :=
  if (tokens.length : Int) ≤ id then do
    let size ← addInt id 1
    return resize tokens size.toNat []
  else .ok tokens

theorem setToken_grows (tokens : List Bytes) (id : Int) (token : Bytes) :
    setToken tokens id token =
      (growTo tokens id >>= fun grown => ensure (0 ≤ id) .outOfBounds >>= fun _ =>
        writeAt grown id.toNat [token]) := by
  unfold setToken growTo
  split
  · cases addInt id 1 <;> rfl
  · rfl

/-- Room for an id is made behind the tokens that are there. -/
theorem grow_eq {tokens : List Bytes} {id : Int} (hsize : tokens.length ≤ intMax) (hid : 0 ≤ id)
    (hmax : id < intMax) :
    ∃ grown, growTo tokens id = .ok grown ∧ id.toNat < grown.length ∧
      (grown.length : Int) ≤ intMax ∧ ∀ j < tokens.length, grown[j]? = tokens[j]? := by
  by_cases hgrow : (tokens.length : Int) ≤ id
  · have hfits : FitsInt (id + 1) := fitsInt_iff.mpr ⟨by omega, by unfold intMax at hmax; omega⟩
    refine ⟨resize tokens (id + 1).toNat [], ?_, ?_, ?_, fun j hj => ?_⟩
    · rw [growTo, if_pos hgrow, addInt, narrow_eq hfits]
      rfl
    · rw [length_resize]
      omega
    · rw [length_resize]
      omega
    · rw [resize_of_le (by omega), List.getElem?_append_left hj]
  · exact ⟨tokens, if_neg hgrow, by omega, hsize, fun _ _ => rfl⟩

/-- What a store under an id leaves: the token there, everything else where it was. -/
theorem setToken_eq {tokens : List Bytes} {id : Int} (token : Bytes)
    (hsize : tokens.length ≤ intMax) (hid : 0 ≤ id) (hmax : id < intMax) :
    ∃ out, setToken tokens id token = .ok out ∧ (out.length : Int) ≤ intMax ∧
      out[id.toNat]? = some token ∧ ∀ j ≠ id.toNat, j < tokens.length → out[j]? = tokens[j]? := by
  obtain ⟨grown, hgrown, hroom, hlength, hkeeps⟩ := grow_eq hsize hid hmax
  obtain ⟨out, hwrite⟩ : ∃ out, writeAt grown id.toNat [token] = .ok out :=
    ⟨_, writeAt_ok.mpr ⟨hroom, rfl⟩⟩
  refine ⟨out, ?_, ?_, ?_, fun j hj hlt => ?_⟩
  · rw [setToken_grows, hgrown, ok_bind, ensure_pos hid, ok_bind, hwrite]
  · rwa [length_of_writeAt hwrite]
  · rw [getElem?_of_writeAt hwrite]
    simp
  · rw [getElem?_of_writeAt hwrite, if_neg (by simp; omega), hkeeps j hlt]

/-- A negative id is written before the vector, and one more than the greatest overflows. -/
theorem setToken_ok {tokens out : List Bytes} {id : Int} {token : Bytes}
    (hsize : tokens.length ≤ intMax) (h : setToken tokens id token = .ok out) :
    0 ≤ id ∧ id < intMax := by
  simp only [setToken_grows, bind_ok, ensure_ok] at h
  obtain ⟨grown, hgrown, -, hid, -⟩ := h
  refine ⟨hid, ?_⟩
  by_contra hmax
  have hgrow : (tokens.length : Int) ≤ id := by omega
  rw [growTo, if_pos hgrow, bind_ok] at hgrown
  obtain ⟨size, hadd, -⟩ := hgrown
  have hfits := fitsInt_iff.mp (narrow_ok.mp hadd).1
  unfold intMax at hmax
  omega

-- ---------------------------------------------------------------------------
-- All ids
-- ---------------------------------------------------------------------------

/-- After the ids `given`, a token whose id nothing else was given is found under it. -/
structure Indexed (maps : UMap Bytes Int × List Bytes) (given : List (Bytes × Int)) : Prop where
  size : (maps.2.length : Int) ≤ intMax
  inverse : ∀ token id, maps.1.lookup token = some id →
    (∀ token', (token', id) ∈ given → token' = token) →
      0 ≤ id ∧ maps.2[id.toNat]? = some token

/-- An id that a vector can have as an index. -/
def IndexOk (given : Bytes × Int) : Prop := 0 ≤ given.2 ∧ given.2 < intMax

theorem giveId_indexed {maps : UMap Bytes Int × List Bytes} {given : List (Bytes × Int)}
    {next : Bytes × Int} (h : Indexed maps given) (hnext : IndexOk next) :
    ∃ maps', giveId maps next = .ok maps' ∧ Indexed maps' (given ++ [next]) := by
  obtain ⟨key, newId⟩ := next
  obtain ⟨hid, hmax⟩ := hnext
  obtain ⟨out, hset, hsize, hown, hothers⟩ := setToken_eq key h.size hid hmax
  refine ⟨(maps.1.insert key newId, out), ?_, hsize, fun token id hlookup honly => ?_⟩
  · rw [giveId, hset, ok_bind]
    rfl
  · by_cases htoken : token = key
    · subst htoken
      rw [AList.lookup_insert] at hlookup
      cases hlookup
      exact ⟨hid, hown⟩
    · rw [AList.lookup_insert_ne htoken] at hlookup
      have hne : newId ≠ id := by
        rintro rfl
        exact htoken (honly key (List.mem_append_right _ (List.mem_singleton_self _))).symm
      obtain ⟨hpos, hheld⟩ := h.inverse token id hlookup fun token' hmem =>
        honly token' (List.mem_append_left _ hmem)
      have hlt : id.toNat < maps.2.length := (List.getElem?_eq_some_iff.mp hheld).1
      exact ⟨hpos, by rw [hothers _ (by omega) hlt, hheld]⟩

/-- The walk stays inside the vector exactly for ids that a vector can have. -/
theorem giveIds_ok {maps : UMap Bytes Int × List Bytes} {given : List (Bytes × Int)}
    (h : Indexed maps given) (further : List (Bytes × Int)) :
    ((∃ maps', further.foldlM giveId maps = .ok maps') ↔ ∀ next ∈ further, IndexOk next) ∧
      ∀ maps', further.foldlM giveId maps = .ok maps' → Indexed maps' (given ++ further) := by
  induction further generalizing maps given with
  | nil =>
    refine ⟨⟨fun _ _ hnext => absurd hnext List.not_mem_nil, fun _ => ⟨maps, rfl⟩⟩, ?_⟩
    intro maps' hmaps
    cases hmaps
    rwa [List.append_nil]
  | cons next further ih =>
    rw [List.foldlM_cons, List.forall_mem_cons]
    by_cases hnext : IndexOk next
    · obtain ⟨mid, hgive, hmid⟩ := giveId_indexed h hnext
      obtain ⟨hiff, hrun⟩ := ih hmid
      rw [hgive, ok_bind]
      refine ⟨hiff.trans ⟨fun hrest => ⟨hnext, hrest⟩, And.right⟩, fun maps' hmaps => ?_⟩
      rw [List.append_cons]
      exact hrun maps' hmaps
    · have hstop : ∀ maps', (giveId maps next >>= further.foldlM giveId) ≠ .ok maps' := by
        intro maps' hmaps
        rw [bind_ok] at hmaps
        obtain ⟨mid, hgive, -⟩ := hmaps
        rw [giveId, bind_ok] at hgive
        obtain ⟨out, hset, -⟩ := hgive
        exact hnext (setToken_ok h.size hset)
      exact ⟨⟨fun ⟨maps', hmaps⟩ => absurd hmaps (hstop maps'), fun hall => absurd hall.1 hnext⟩,
        fun maps' hmaps => absurd hmaps (hstop maps')⟩

-- ---------------------------------------------------------------------------
-- A load
-- ---------------------------------------------------------------------------

/-- The load throws, or all its writes are inside the vector and a token whose id the document
gives to no other token is found under that id. -/
def IndexSafe (codec : Cjson Text) (blob : Text) (maxLength : Nat) (hmax : 0 < maxLength) : Prop :=
  ∃ outcome, loadFromBlob codec blob maxLength hmax new = .ok outcome ∧
    ∀ t root, outcome = .returned t → codec.parse blob = some root →
      ∀ token id, t.vocab.lookup token = some id →
        (∀ token', (token', id) ∈ givenIds root → token' = token) →
        0 ≤ id ∧ t.idToToken[id.toNat]? = some token

theorem indexed_new : Indexed (new.vocab, new.idToToken) [] where
  size := Int.natCast_nonneg _
  inverse _ _ hlookup := absurd hlookup (by simp [new])

theorem indexSafe_iff (codec : Cjson Text) (blob : Text) (maxLength : Nat)
    (hmax : 0 < maxLength) :
    IndexSafe codec blob maxLength hmax ↔
      ∀ root, codec.parse blob = some root → ∀ given ∈ givenIds root, IndexOk given := by
  unfold IndexSafe loadFromBlob
  cases hparse : codec.parse blob with
  | none =>
    refine ⟨fun _ root hroot => (Option.some_ne_none root hroot.symm).elim, fun _ => ?_⟩
    exact ⟨.threw, rfl, fun t root ht => by cases ht⟩
  | some root =>
    dsimp only
    generalize hstart : ({ new with maxLength, maxLengthPos := hmax } : TokenizerWrapper) = start
    have hmaps : (loadFromTree root start).map idMaps =
        (givenIds root).foldlM giveId (new.vocab, new.idToToken) := by
      rw [loadFromTree_maps, ← hstart]
      rfl
    obtain ⟨hiff, hrun⟩ := giveIds_ok indexed_new (givenIds root)
    rw [← hmaps] at hiff hrun
    constructor
    · rintro ⟨outcome, hload, -⟩ root' hroot
      cases hroot
      obtain ⟨t, ht, -⟩ := bind_ok.mp hload
      exact hiff.mp ⟨t.idMaps, by rw [ht]; rfl⟩
    · intro hok
      obtain ⟨maps, hwalk⟩ := hiff.mpr (hok root rfl)
      obtain ⟨t, ht, rfl⟩ := map_ok.mp hwalk
      refine ⟨.returned t, by rw [ht]; rfl, fun t' root' ht' hroot => ?_⟩
      cases ht'
      cases hroot
      exact (hrun t.idMaps hwalk).inverse

/-- A document with one member of the vocabulary. -/
def oneToken (id : Json) : Json :=
  .object [(ascii "model", .object [(ascii "vocab", .object [(ascii "a", id)])])]

theorem indexSafe_zero : IndexSafe treeCodec (some (oneToken (.number 0))) 512 (by decide) := by
  refine (indexSafe_iff treeCodec _ 512 (by decide)).mpr fun root hroot given hgiven => ?_
  cases hroot
  have hids : givenIds (oneToken (.number 0)) = [(ascii "a", 0)] := by decide
  rw [hids, List.mem_singleton] at hgiven
  subst hgiven
  exact ⟨by decide, by decide⟩

/-- The id minus one is written before the vector. -/
theorem negative_id_outOfBounds :
    ¬ IndexSafe treeCodec (some (oneToken (.number (-1)))) 512 (by decide) := by
  rintro ⟨outcome, hload, -⟩
  have hfault : loadFromBlob treeCodec (some (oneToken (.number (-1)))) 512 (by decide) new =
      .error .outOfBounds := by rfl
  rw [hfault] at hload
  cases hload

end TokenizerWrapper

end LibEmbedding
