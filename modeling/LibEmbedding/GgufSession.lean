import LibEmbedding.GgufSpec
import LibEmbedding.GgufWeights
import LibEmbedding.TokenizerLoad

/-!
# Loading a sparse session

`gguf_sparse_session.hpp`, from the file to the members of the session. The members are
assigned one after another; a load that fails leaves those it has reached.
-/

namespace LibEmbedding

open Foundation

/-- The graph kept for the next batch of its shape. `generation` tells which load brought
the weights it was built over. -/
structure CachedGraph where
  weights : Weights
  generation : Nat
  seqLen : Nat
  batch : Nat

/-- `generation` counts the loads that replaced the weights. -/
structure SparseSession where
  weights : Option Weights
  generation : Nat
  tok : TokenizerWrapper
  path : Bytes
  specialIds : List Int
  vocabSize : Int
  maxLength : Int
  graph : Option CachedGraph

def SparseSession.new : SparseSession where
  weights := none
  generation := 0
  tok := .new
  path := []
  specialIds := []
  vocabSize := 0
  maxLength := 0
  graph := none

-- ---------------------------------------------------------------------------
-- What a session accepts
-- ---------------------------------------------------------------------------

/-- Refuses anything that is not a SPLADE head over a known vocabulary. -/
def accept (p : Probe) : Except Bytes Unit := do
  let d := classify p
  refuseUnless p.isSome (ascii "not a readable GGUF file")
  refuseUnless (d.diagnostic = []) d.diagnostic
  refuseUnless (GgufCap.splade ∈ d.capabilities)
    (ascii "GGUF carries no SPLADE head (mlm_transform.weight is absent)")
  refuseUnless (d.sparseFormula = .splade) (ascii "GGUF sparse formula is not SPLADE")
  refuseUnless d.vocabSize.isSome
    (ascii "GGUF has no <architecture>.vocab_size to pool over")
  refuseUnless (d.missingHparams = []) (ascii "GGUF is missing " ++ d.missingHparams)
  refuseUnless (GgufCap.sparseLinear ∉ d.capabilities)
    (ascii ("GGUF carries both a SPLADE head and a sparse_linear head; " ++
      "refusing to guess which one this file is meant for"))

/-- Only an id that is not negative replaces the given one. -/
def readTokenId (p : Probe) (key : String) (out : Int) : Int :=
  match p.getI32 (ascii key) with
  | some v => if 0 ≤ v then v else out
  | none => out

/-- `%d` -/
def decimal (n : Int) : Bytes :=
  if n < 0 then ascii "-" ++ stdToString n.natAbs else stdToString n.natAbs

/-- The tokenizer models the runtime implements. -/
def knownTokenizer (p : Probe) : Bool :=
  match p.getStr (ascii "tokenizer.ggml.model") with
  | some model => decide (model = ascii "bert" ∨ model = ascii "bert-wordpiece")
  | none => true

/-- The surface forms of the file, one for each id. -/
def readTokens (p : Probe) (hp : SpladeHparams) : Except Bytes (List Bytes) := do
  match p.getArrStr (ascii "tokenizer.ggml.tokens") with
  | none => .error (ascii "GGUF has no tokenizer.ggml.tokens vocabulary array")
  | some tokens =>
    let model := (p.getStr (ascii "tokenizer.ggml.model")).getD []
    refuseUnless (knownTokenizer p) (ascii "GGUF declares tokenizer model '" ++ model ++
      ascii "', which this runtime does not implement (expected bert)")
    let size := toInt32 tokens.length
    refuseUnless (size = hp.nVocab) (snprintf 192 (ascii "GGUF vocabulary holds " ++
      decimal size ++ ascii " entries but " ++ hp.arch ++ ascii ".vocab_size is " ++
      decimal hp.nVocab))
    return tokens

/-- The steps of a load that come before any member is assigned. -/
def openModel (path : Option Bytes) (file : Option GgufHeader) (env : LoadEnv) :
    Except Bytes (Probe × Weights × List Bytes) := do
  let opened ← openWeights path file
  let p : Probe := some opened.header
  accept p
  let weights ← loadTensors opened env
  let tokens ← readTokens p weights.hparams
  return (p, weights, tokens)

namespace SparseSession

/-- `max_length` of 0 means as long as the position table allows. -/
def cappedLength (maxLength nPos : Int) : Int :=
  if 0 < maxLength then min maxLength nPos else nPos

/-- The vocabulary of a file, with the special ids it declares. -/
def loadTokens (p : Probe) (tokens : List Bytes) (maxLength : Int) (tok : TokenizerWrapper) :
    Option TokenizerWrapper :=
  let padId := readTokenId p "tokenizer.ggml.pad_token_id" (-1)
  let unkId := readTokenId p "tokenizer.ggml.unk_token_id" (-1)
  let clsId := readTokenId p "tokenizer.ggml.cls_token_id" (-1)
  let sepId := readTokenId p "tokenizer.ggml.separator_token_id" (-1)
  let sepId := if sepId < 0 then readTokenId p "tokenizer.ggml.eos_token_id" sepId else sepId
  let addBos := (p.getBool (ascii "tokenizer.ggml.adding_bos_token")).getD true
  let addEos := (p.getBool (ascii "tokenizer.ggml.adding_eos_token")).getD true
  -- `[CLS]` and `[SEP]` go on as a pair or not at all
  let addSpecial := addBos && addEos
  tok.loadVocab tokens padId unkId (if addSpecial then clsId else -1)
    (if addSpecial then sepId else -1) maxLength addSpecial

/-- `file` is what the reader makes of the file at `path`, `env` says which allocations
succeed. -/
def loadFromFile (s : SparseSession) (path : Option Bytes) (file : Option GgufHeader)
    (env : LoadEnv) (maxLength : Int) : Except Bytes Unit × SparseSession :=
  match openModel path file env with
  | .error err => (.error err, s)
  | .ok (p, weights, tokens) =>
    let hp := weights.hparams
    let s := { s with maxLength := cappedLength maxLength hp.nPos }
    match loadTokens p tokens s.maxLength s.tok with
    | none => (.error (ascii "vocabulary is empty"), s)
    | some tok =>
      let s := { s with tok }
      if tok.padTokenId < 0 ∨ hp.nVocab ≤ tok.padTokenId then
        (.error (ascii "GGUF pad token id is outside the vocabulary"), s)
      else
        (.ok (), { s with
          vocabSize := hp.nVocab
          specialIds := weights.specialIds
          path := path.getD []
          weights := some weights
          generation := s.generation + 1 })

end SparseSession

end LibEmbedding
