import LibEmbedding.Foundation.Buffer
import LibEmbedding.Tokenizer

/-!
# Loading a tokenizer

The two initialisations of a `TokenizerWrapper`: `load_from_blob` walks a
`tokenizer.json`, `load_vocab` a list of surface forms in id order.
-/

namespace LibEmbedding

open Foundation

namespace TokenizerWrapper

-- ---------------------------------------------------------------------------
-- `load_from_blob`
-- ---------------------------------------------------------------------------

/-- `id_to_token_` grows to hold `id` and stores the token there. -/
def setToken (idToToken : List Bytes) (id : Int) (token : Bytes) : Checked (List Bytes) := do
  let grown ←
    if (idToToken.length : Int) ≤ id then do
      let size ← addInt id 1
      pure (resize idToToken size.toNat [])
    else pure idToToken
  ensure (0 ≤ id) .outOfBounds
  writeAt grown id.toNat [token]

def addToken (t : TokenizerWrapper) (token : Bytes) (id : Int) : Checked TokenizerWrapper := do
  let idToToken ← setToken t.idToToken id token
  return { t with vocab := t.vocab.insert token id, idToToken }

def isNumber : Json → Bool
  | .number _ => true
  | _ => false

def isTrue : Json → Bool
  | .bool true => true
  | _ => false

def isArray : Json → Bool
  | .array _ => true
  | _ => false

/-- The string under a name, when there is one. -/
def stringItem (object : Option Json) (name : String) : Option Bytes :=
  (Json.getObjectItem object (ascii name)).bind Json.valuestring

def loadVocabItem (t : TokenizerWrapper) (item : Option Bytes × Json) : Checked TokenizerWrapper :=
  match item.1 with
  | some token => if isNumber item.2 then t.addToken token item.2.valueint.val else .ok t
  | none => .ok t

def loadMerge (t : TokenizerWrapper) (merge : Json × Nat) : TokenizerWrapper :=
  match merge.1.valuestring with
  | some m => { t with bpeMerges := t.bpeMerges ++ [m], bpeRanks := t.bpeRanks.insert m merge.2 }
  | none => t

def loadMerges (model : Json) (t : TokenizerWrapper) : TokenizerWrapper :=
  match t.type, Json.getObjectItem (some model) (ascii "merges") with
  | .bpe, some (.array items) => items.zipIdx.foldl loadMerge t
  | _, _ => t

def loadModel (root : Json) (t : TokenizerWrapper) : Checked TokenizerWrapper := do
  match Json.getObjectItem (some root) (ascii "model") with
  | none => return t
  | some model =>
    let t := match stringItem (some model) "type" with
      | some name =>
        { t with type := if name = ascii "BPE" ∨ name = ascii "bpe" then .bpe else .wordpiece }
      | none => t
    let t ← match Json.getObjectItem (some model) (ascii "vocab") with
      | some vocab => vocab.children.foldlM loadVocabItem t
      | none => pure t
    let t := loadMerges model t
    let t := { t with
      wpPrefix := (stringItem (some model) "continuing_subword_prefix").getD (ascii "##") }
    return { t with
      unkTokenId := ((stringItem (some model) "unk_token").bind t.vocab.lookup).getD t.unkTokenId }

/-- Whether one entry of a `Sequence` normalizer lower-cases. -/
def lowercases (sub : Json) : Bool := stringItem (some sub) "type" = some (ascii "Lowercase")

def loadNormalizer (root : Json) (t : TokenizerWrapper) : TokenizerWrapper :=
  match Json.getObjectItem (some root) (ascii "normalizer") with
  | none => { t with doLowerCase := false }
  | some normalizer =>
    match stringItem (some normalizer) "type" with
    | none => t
    | some name =>
      if name = ascii "BertNormalizer" ∨ name = ascii "Lowercase" then
        let lowercase := Json.getObjectItem (some normalizer) (ascii "lowercase")
        { t with doLowerCase := lowercase.all isTrue }
      else if name = ascii "Sequence" then
        match Json.getObjectItem (some normalizer) (ascii "normalizers") with
        | some (.array subs) => if subs.any lowercases then { t with doLowerCase := true } else t
        | _ => t
      else { t with doLowerCase := false }

def loadPostProcessor (root : Json) (t : TokenizerWrapper) : TokenizerWrapper :=
  let post := Json.getObjectItem (some root) (ascii "post_processor")
  if stringItem post "type" = some (ascii "TemplateProcessing") then
    { t with addSpecialTokens := true }
  else t

/-- The ids an added token sets, by its content. -/
def setSpecial (t : TokenizerWrapper) (token : Bytes) (id : Int) : TokenizerWrapper :=
  { t with
    clsTokenId := if token = ascii "[CLS]" ∨ token = ascii "<s>" then id else t.clsTokenId
    sepTokenId := if token = ascii "[SEP]" ∨ token = ascii "</s>" then id else t.sepTokenId
    padTokenId := if token = ascii "[PAD]" ∨ token = ascii "<pad>" then id else t.padTokenId
    unkTokenId := if token = ascii "[UNK]" ∨ token = ascii "<unk>" then id else t.unkTokenId }

/-- Content and id of an added token that has both. -/
def addedToken (item : Json) : Option (Bytes × Int) :=
  match stringItem (some item) "content", Json.getObjectItem (some item) (ascii "id") with
  | some content, some id => if isNumber id then some (content, id.valueint.val) else none
  | _, _ => none

def loadAddedToken (t : TokenizerWrapper) (item : Json) : Checked TokenizerWrapper :=
  match addedToken item with
  | none => .ok t
  | some (token, id) => do
    let t ← t.addToken token id
    return t.setSpecial token id

def loadAddedTokens (root : Json) (t : TokenizerWrapper) : Checked TokenizerWrapper :=
  match Json.getObjectItem (some root) (ascii "added_tokens") with
  | some (.array items) => items.foldlM loadAddedToken t
  | _ => .ok t

def loadPadding (root : Json) (t : TokenizerWrapper) : TokenizerWrapper :=
  match Json.getObjectItem (Json.getObjectItem (some root) (ascii "padding")) (ascii "pad_id") with
  | some id => if isNumber id then { t with padTokenId := id.valueint.val } else t
  | none => t

/-- What the walk over a parsed document makes of a wrapper. -/
def loadFromTree (root : Json) (t : TokenizerWrapper) : Checked TokenizerWrapper := do
  let t ← loadModel root t
  let t := loadPostProcessor root (loadNormalizer root t)
  let t ← loadAddedTokens root t
  return loadPadding root t

def loadFromBlob (codec : Cjson Text) (blob : Text) (maxLength : Nat) (h : 0 < maxLength)
    (t : TokenizerWrapper) : Checked (Outcome TokenizerWrapper) :=
  match codec.parse blob with
  | none => .ok .threw
  | some root => do
    let t ← loadFromTree root { t with maxLength, maxLengthPos := h }
    return .returned t

-- ---------------------------------------------------------------------------
-- `load_vocab`
-- ---------------------------------------------------------------------------

/-- `vocab_.emplace`: the first id of a surface form stays. -/
def emplace (vocab : UMap Bytes Int) (entry : Bytes × Nat) : UMap Bytes Int :=
  if entry.1 ∈ vocab then vocab else vocab.insert entry.1 entry.2

def resolveSpecial (t : TokenizerWrapper) (explicitId : Int) (surface : String) (fallbackId : Int) :
    Int :=
  let vocabSize : Int := t.idToToken.length
  if 0 ≤ explicitId ∧ explicitId < vocabSize then explicitId
  else
    match t.vocab.lookup (ascii surface) with
    | some id => id
    | none => if 0 ≤ fallbackId ∧ fallbackId < vocabSize then fallbackId else 0

theorem loadedMaxLength_pos (maxLength : Int) :
    0 < if 0 < maxLength then maxLength.toNat else 512 := by
  split <;> omega

/-- The state `load_vocab` leaves, `none` for an empty list. -/
def loadVocab (tokens : List Bytes) (padId unkId clsId sepId maxLength : Int)
    (addSpecialTokens : Bool) (t : TokenizerWrapper) : Option TokenizerWrapper :=
  if tokens = [] then none
  else
    let t := { t with
      vocab := tokens.zipIdx.foldl emplace ∅
      idToToken := tokens
      type := .wordpiece
      wpPrefix := ascii "##"
      doLowerCase := true
      addSpecialTokens
      maxLength := if 0 < maxLength then maxLength.toNat else 512
      maxLengthPos := loadedMaxLength_pos maxLength }
    let t := { t with padTokenId := t.resolveSpecial padId "[PAD]" 0 }
    let t := { t with unkTokenId := t.resolveSpecial unkId "[UNK]" 100 }
    let t := { t with clsTokenId := t.resolveSpecial clsId "[CLS]" 101 }
    some { t with sepTokenId := t.resolveSpecial sepId "[SEP]" 102 }

end TokenizerWrapper

end LibEmbedding
