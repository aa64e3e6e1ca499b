import LibEmbedding.Cjson
import LibEmbedding.Foundation.Lru

/-!
# The tokenizer

`tokenizer_impl.hpp`: normalisation and pre-tokenisation over bytes, WordPiece
and BPE over a vocabulary, and the padded batch the models read. Loops over a
string recurse on the bytes that are left; the fuel is their number, and every
step uses at least one.
-/

namespace LibEmbedding

open Foundation

-- ---------------------------------------------------------------------------
-- Normalisation
-- ---------------------------------------------------------------------------

/-- The base letters of U+00C0 to U+00FF, `-1` for those without a canonical
decomposition. -/
def latin1Bases : List Int := [
  97, 97, 97, 97, 97, 97, -1, 99, 101, 101, 101, 101, 105, 105, 105, 105,
  -1, 110, 111, 111, 111, 111, 111, -1, -1, 117, 117, 117, 117, 121, -1, -1,
  97, 97, 97, 97, 97, 97, -1, 99, 101, 101, 101, 101, 105, 105, 105, 105,
  -1, 110, 111, 111, 111, 111, 111, -1, -1, 117, 117, 117, 117, 121, -1, 121]

def latin1Base (cp : Nat) : Int :=
  if 0xC0 ≤ cp ∧ cp ≤ 0xFF then latin1Bases.getD (cp - 0xC0) (-1) else -1

/-- Letters of Latin Extended-A that have no canonical decomposition. -/
def extendedAFixed : List Nat :=
  [0x110, 0x111, 0x126, 0x127, 0x132, 0x133, 0x13F, 0x140, 0x14A, 0x14B, 0x152, 0x153, 0x166, 0x167]

def extendedABase (cp : Nat) : Int :=
  if cp ∈ extendedAFixed then -1
  else if cp = 0x130 ∨ cp = 0x131 then 105
  else if cp = 0x17F then 115
  else
    let base := if cp % 2 = 0 then cp else cp - 1
    if 0xC0 ≤ base ∧ base ≤ 0xFF then latin1Base base else -1

/-- The code point at the front of the bytes and how many bytes it takes. A byte
that starts no complete sequence stands for itself. -/
def utf8Next (c : UInt8) (rest : Bytes) : Nat × Nat :=
  let low (b : UInt8) : Nat := (b &&& 0x3F).toNat
  if c < 0x80 then (c.toNat, 1)
  else if c &&& 0xE0 = 0xC0 ∧ 1 ≤ rest.length then
    ((c &&& 0x1F).toNat * 64 + low (rest.getD 0 0), 2)
  else if c &&& 0xF0 = 0xE0 ∧ 2 ≤ rest.length then
    ((c &&& 0x0F).toNat * 4096 + low (rest.getD 0 0) * 64 + low (rest.getD 1 0), 3)
  else if c &&& 0xF8 = 0xF0 ∧ 3 ≤ rest.length then
    ((c &&& 0x07).toNat * 262144 + low (rest.getD 0 0) * 4096 + low (rest.getD 1 0) * 64 +
      low (rest.getD 2 0), 4)
  else (c.toNat, 1)

/-- What one decoded unit contributes to the normalised text. -/
def normalizeUnit (cp : Nat) (raw : Bytes) : Bytes :=
  let folded (b : Int) : Bytes := if 0 ≤ b then [UInt8.ofNat b.toNat] else raw
  if 65 ≤ cp ∧ cp ≤ 90 then [UInt8.ofNat (cp - 65 + 97)]
  else if 0xC0 ≤ cp ∧ cp ≤ 0xDE ∧ cp ≠ 0xD7 then folded (latin1Base cp)
  else if 0xC0 ≤ cp ∧ cp ≤ 0xFF then folded (latin1Base cp)
  else if 0x100 ≤ cp ∧ cp ≤ 0x17F then folded (extendedABase cp)
  else raw

def bertNormalizeLoop : Nat → Bytes → Bytes
  | 0, _ => []
  | _, [] => []
  | fuel + 1, c :: rest =>
    let (cp, n) := utf8Next c rest
    normalizeUnit cp ((c :: rest).take n) ++ bertNormalizeLoop fuel ((c :: rest).drop n)

def bertNormalize (s : Bytes) : Bytes := bertNormalizeLoop s.length s

-- ---------------------------------------------------------------------------
-- Pre-tokenisation
-- ---------------------------------------------------------------------------

def isPunctuation (c : UInt8) : Bool :=
  (33 ≤ c && c ≤ 47) || (58 ≤ c && c ≤ 64) || (91 ≤ c && c ≤ 96) || (123 ≤ c && c ≤ 126)

/-- How many bytes the leading byte announces. -/
def utf8Length (c : UInt8) : Nat :=
  if c &&& 0xE0 = 0xC0 then 2
  else if c &&& 0xF0 = 0xE0 then 3
  else if c &&& 0xF8 = 0xF0 then 4
  else 1

def flush (tokens : List Bytes) (current : Bytes) : List Bytes :=
  if current = [] then tokens else tokens ++ [current]

def basicTokenizeLoop : Nat → Bytes → Bytes → List Bytes → List Bytes
  | 0, _, current, tokens => flush tokens current
  | _, [], current, tokens => flush tokens current
  | fuel + 1, c :: rest, current, tokens =>
    if c ≤ 0x20 then basicTokenizeLoop fuel rest [] (flush tokens current)
    else if isPunctuation c then
      basicTokenizeLoop fuel rest [] (flush tokens current ++ [[c]])
    else if 0x80 ≤ c then
      let n := utf8Length c
      basicTokenizeLoop fuel ((c :: rest).drop n) []
        (flush tokens current ++ [(c :: rest).take n])
    else basicTokenizeLoop fuel rest (current ++ [c]) tokens

def basicTokenize (text : Bytes) : List Bytes := basicTokenizeLoop text.length text [] []

-- ---------------------------------------------------------------------------
-- The tokenizer state
-- ---------------------------------------------------------------------------

inductive TokenizerType where
  | wordpiece
  | bpe
  deriving DecidableEq, Repr

/-- Every creator passes a positive maximum length on. -/
structure TokenizerWrapper where
  vocab : UMap Bytes Int
  idToToken : List Bytes
  bpeMerges : List Bytes
  bpeRanks : UMap Bytes Int
  wpPrefix : Bytes
  maxLength : Nat
  maxLengthPos : 0 < maxLength
  padTokenId : Int
  clsTokenId : Int
  sepTokenId : Int
  unkTokenId : Int
  type : TokenizerType
  doLowerCase : Bool
  addSpecialTokens : Bool

structure EncodingBatch where
  inputIds : List (List Int)
  attentionMask : List (List Int)
  tokenTypeIds : List (List Int)
  seqLength : Nat
  deriving DecidableEq, Repr

namespace TokenizerWrapper

def new : TokenizerWrapper where
  vocab := ∅
  idToToken := []
  bpeMerges := []
  bpeRanks := ∅
  wpPrefix := []
  maxLength := 512
  maxLengthPos := by decide
  padTokenId := 0
  clsTokenId := 101
  sepTokenId := 102
  unkTokenId := 100
  type := .wordpiece
  doLowerCase := true
  addSpecialTokens := true

-- ---------------------------------------------------------------------------
-- WordPiece
-- ---------------------------------------------------------------------------

/-- The string looked up for the piece of `len` bytes at `start`. -/
def piece (t : TokenizerWrapper) (word : Bytes) (start len : Nat) : Bytes :=
  (if 0 < start then t.wpPrefix else []) ++ (word.drop start).take len

/-- The longest piece at `start` that is in the vocabulary: its id and its end. -/
def longestPiece (t : TokenizerWrapper) (word : Bytes) (start : Nat) : Nat → Option (Int × Nat)
  | 0 => none
  | len + 1 =>
    match t.vocab.lookup (t.piece word start (len + 1)) with
    | some id => some (id, start + (len + 1))
    | none => longestPiece t word start len

def wordpieceLoop (t : TokenizerWrapper) (word : Bytes) : Nat → Nat → Bool → List Int → List Int
  | 0, _, _, ids => ids
  | fuel + 1, start, foundAny, ids =>
    if start < word.length then
      match t.longestPiece word start (word.length - start) with
      | some (id, stop) => wordpieceLoop t word fuel stop true (ids ++ [id])
      | none => if foundAny then ids else ids ++ [t.unkTokenId]
    else ids

def wordpieceTokenize (t : TokenizerWrapper) (word : Bytes) (ids : List Int) : List Int :=
  if word = [] then ids
  else
    match t.vocab.lookup word with
    | some id => ids ++ [id]
    | none => t.wordpieceLoop word word.length 0 false ids

-- ---------------------------------------------------------------------------
-- BPE
-- ---------------------------------------------------------------------------

def symbolsLoop : Nat → Bytes → List Bytes
  | 0, _ => []
  | _, [] => []
  | fuel + 1, c :: rest =>
    let n := utf8Length c
    (c :: rest).take n :: symbolsLoop fuel ((c :: rest).drop n)

/-- The rank and position of the pair to merge next: the first of least rank. -/
def bestPair (t : TokenizerWrapper) (symbols : List Bytes) : Int × Option Nat :=
  (List.range (symbols.length - 1)).foldl (fun best i =>
    let pair := symbols.getD i [] ++ [32] ++ symbols.getD (i + 1) []
    match t.bpeRanks.lookup pair with
    | some rank => if rank < best.1 then (rank, some i) else best
    | none => best) (intMax, none)

def mergeAt (symbols : List Bytes) (pos : Nat) : List Bytes :=
  symbols.take pos ++ [symbols.getD pos [] ++ symbols.getD (pos + 1) []] ++ symbols.drop (pos + 2)

def mergeLoop (t : TokenizerWrapper) : Nat → List Bytes → List Bytes
  | 0, symbols => symbols
  | fuel + 1, symbols =>
    if 1 < symbols.length then
      match (t.bestPair symbols).2 with
      | none => symbols
      | some pos => mergeLoop t fuel (mergeAt symbols pos)
    else symbols

def bpeTokenize (t : TokenizerWrapper) (word : Bytes) (ids : List Int) : List Int :=
  let symbols := symbolsLoop word.length word
  ids ++ (t.mergeLoop symbols.length symbols).map fun sym => (t.vocab.lookup sym).getD t.unkTokenId

-- ---------------------------------------------------------------------------
-- Encoding
-- ---------------------------------------------------------------------------

def tokenizeWord (t : TokenizerWrapper) (ids : List Int) (word : Bytes) : List Int :=
  match t.type with
  | .wordpiece => t.wordpieceTokenize word ids
  | .bpe => t.bpeTokenize word ids

def truncate (t : TokenizerWrapper) (ids : List Int) : List Int :=
  if t.maxLength < ids.length then
    let ids := ids.take t.maxLength
    if t.addSpecialTokens then ids.dropLast ++ [t.sepTokenId] else ids
  else ids

def encodeSingle (t : TokenizerWrapper) (text : Bytes) : List Int :=
  let processed := if t.doLowerCase then bertNormalize text else text
  let ids := if t.addSpecialTokens then [t.clsTokenId] else []
  let ids := (basicTokenize processed).foldl t.tokenizeWord ids
  let ids := if t.addSpecialTokens then ids ++ [t.sepTokenId] else ids
  t.truncate ids

def encode (t : TokenizerWrapper) (text : Bytes) : List Int := t.encodeSingle text

/-- `xs.resize(n, fill)` -/
def resize (xs : List α) (n : Nat) (fill : α) : List α :=
  xs.take n ++ List.replicate (n - xs.length) fill

def encodeBatch (t : TokenizerWrapper) (texts : List Bytes) : EncodingBatch :=
  let allIds := texts.map t.encodeSingle
  let longest := allIds.foldl (fun n ids => max n ids.length) 0
  let seqLength := min longest t.maxLength
  { inputIds := allIds.map fun ids => resize ids seqLength t.padTokenId
    attentionMask := allIds.map fun ids => resize (List.replicate ids.length 1) seqLength 0
    tokenTypeIds := allIds.map fun _ => List.replicate seqLength 0
    seqLength }

-- ---------------------------------------------------------------------------
-- The rows of a batch
-- ---------------------------------------------------------------------------

theorem resize_of_le {xs : List α} (h : xs.length ≤ n) (fill : α) :
    resize xs n fill = xs ++ List.replicate (n - xs.length) fill := by
  rw [resize, List.take_of_length_le h]

@[simp] theorem length_resize (xs : List α) (n : Nat) (fill : α) :
    (resize xs n fill).length = n := by
  simp only [resize, List.length_append, List.length_take, List.length_replicate]
  omega

/-- The rows of a batch depend on the tokens of its texts only. -/
theorem encodeBatch_congr {t : TokenizerWrapper} {texts texts' : List Bytes}
    (h : texts.map t.encode = texts'.map t.encode) : t.encodeBatch texts = t.encodeBatch texts' := by
  have hids : texts.map t.encodeSingle = texts'.map t.encodeSingle := h
  simp only [encodeBatch, hids]

theorem length_truncate_le (t : TokenizerWrapper) (ids : List Int) :
    (t.truncate ids).length ≤ t.maxLength := by
  have hpos := t.maxLengthPos
  unfold truncate
  split
  · dsimp only
    split
    · simp only [List.length_append, List.length_dropLast, List.length_take, List.length_singleton]
      omega
    · simp
  · omega

theorem length_encode_le (t : TokenizerWrapper) (text : Bytes) :
    (t.encode text).length ≤ t.maxLength :=
  t.length_truncate_le _

theorem le_foldl_max (l : List (List Int)) (n : Nat) :
    n ≤ l.foldl (fun n ids => max n ids.length) n ∧
      ∀ x ∈ l, x.length ≤ l.foldl (fun n ids => max n ids.length) n := by
  induction l generalizing n with
  | nil => simp
  | cons y l ih =>
    obtain ⟨hle, hmem⟩ := ih (max n y.length)
    refine ⟨le_trans (le_max_left ..) hle, fun x hx => ?_⟩
    rcases List.mem_cons.mp hx with rfl | hx
    · exact le_trans (le_max_right ..) hle
    · exact hmem x hx

/-- No text of a batch is cut beyond its own encoding. -/
theorem length_encode_le_seqLength (t : TokenizerWrapper) {texts : List Bytes} (h : text ∈ texts) :
    (t.encode text).length ≤ (t.encodeBatch texts).seqLength :=
  le_min ((le_foldl_max (texts.map t.encodeSingle) 0).2 _ (List.mem_map_of_mem h))
    (t.length_encode_le text)

theorem inputIds_getElem? (t : TokenizerWrapper) {texts : List Bytes} {i : Nat}
    (h : texts[i]? = some text) : (t.encodeBatch texts).inputIds[i]? =
      some (resize (t.encode text) (t.encodeBatch texts).seqLength t.padTokenId) := by
  simp [encodeBatch, encode, h]

theorem attentionMask_getElem? (t : TokenizerWrapper) {texts : List Bytes} {i : Nat}
    (h : texts[i]? = some text) : (t.encodeBatch texts).attentionMask[i]? =
      some (resize (List.replicate (t.encode text).length 1)
        (t.encodeBatch texts).seqLength 0) := by
  simp [encodeBatch, encode, h]

@[simp] theorem length_inputIds (t : TokenizerWrapper) (texts : List Bytes) :
    (t.encodeBatch texts).inputIds.length = texts.length := by
  simp [encodeBatch]

@[simp] theorem length_attentionMask (t : TokenizerWrapper) (texts : List Bytes) :
    (t.encodeBatch texts).attentionMask.length = texts.length := by
  simp [encodeBatch]

@[simp] theorem length_tokenTypeIds (t : TokenizerWrapper) (texts : List Bytes) :
    (t.encodeBatch texts).tokenTypeIds.length = texts.length := by
  simp [encodeBatch]

theorem length_of_mem_inputIds (t : TokenizerWrapper) (texts : List Bytes) :
    ∀ r ∈ (t.encodeBatch texts).inputIds, r.length = (t.encodeBatch texts).seqLength := by
  intro r hr
  simp only [encodeBatch, List.map_map, List.mem_map, Function.comp] at hr
  obtain ⟨text, -, rfl⟩ := hr
  exact length_resize ..

theorem length_of_mem_attentionMask (t : TokenizerWrapper) (texts : List Bytes) :
    ∀ r ∈ (t.encodeBatch texts).attentionMask, r.length = (t.encodeBatch texts).seqLength := by
  intro r hr
  simp only [encodeBatch, List.map_map, List.mem_map, Function.comp] at hr
  obtain ⟨text, -, rfl⟩ := hr
  exact length_resize ..

theorem length_of_mem_tokenTypeIds (t : TokenizerWrapper) (texts : List Bytes) :
    ∀ r ∈ (t.encodeBatch texts).tokenTypeIds, r.length = (t.encodeBatch texts).seqLength := by
  intro r hr
  simp only [encodeBatch, List.map_map, List.mem_map, Function.comp] at hr
  obtain ⟨text, -, rfl⟩ := hr
  exact List.length_replicate

end TokenizerWrapper

end LibEmbedding
