import LibEmbedding.GgufProbe

/-!
# What a GGUF file is capable of

`gguf_spec.hpp` and the summary of `gguf_inspect_entry.hpp`. Capabilities come from the
presence of tensors, a missing key is reported and never defaulted.
-/

namespace LibEmbedding

open Foundation

/-- `LEMBED_GGUF_CAP_*` -/
inductive GgufCap where
  | dense
  | splade
  | spladeBias
  | sparseLinear
  | colbert
  | reranker
  | tiedDecoder
  | specialTokens
  deriving DecidableEq, Repr

/-- A set of capability bits. -/
abbrev Capabilities := Finset GgufCap

inductive SparseFormula where
  | splade
  | scalar
  | unknown
  deriving DecidableEq, Repr

/-- `snprintf(buf, size, "%s", s)` -/
def snprintf (size : Nat) (s : Bytes) : Bytes := s.take (size - 1)

/-- `lembed_gguf_desc_t`. A number is there when its `has_` flag is set. -/
structure GgufDesc where
  architecture : Bytes
  name : Bytes
  vocabSize : Option Int
  embeddingLength : Option Int
  blockCount : Option Int
  contextLength : Option Int
  colbertDim : Option Int
  nTensors : Nat
  capabilities : Capabilities
  sparseFormula : SparseFormula
  padTokenId : Option Int
  bosTokenId : Option Int
  eosTokenId : Option Int
  clsTokenId : Option Int
  separatorTokenId : Option Int
  missingHparams : Bytes
  diagnostic : Bytes

namespace GgufDesc

/-- `memset(&d, 0, sizeof(d))`, with the unknown formula. -/
def zero : GgufDesc where
  architecture := []
  name := []
  vocabSize := none
  embeddingLength := none
  blockCount := none
  contextLength := none
  colbertDim := none
  nTensors := 0
  capabilities := ∅
  sparseFormula := .unknown
  padTokenId := none
  bosTokenId := none
  eosTokenId := none
  clsTokenId := none
  separatorTokenId := none
  missingHparams := []
  diagnostic := []

/-- Adds a name to the list, as long as the list stays inside its buffer. -/
def noteMissing (d : GgufDesc) (name : Bytes) : GgufDesc :=
  if d.missingHparams = [] then { d with missingHparams := snprintf 256 name }
  else if 256 ≤ d.missingHparams.length + name.length + 2 then d
  else { d with missingHparams := d.missingHparams ++ ascii "|" ++ name }

end GgufDesc

-- ---------------------------------------------------------------------------
-- Classification
-- ---------------------------------------------------------------------------

structure CapabilityRule where
  tensor : String
  companion : Option String
  cap : GgufCap

def capabilityRules : List CapabilityRule := [
  ⟨"mlm_transform.weight", some "mlm_bias", .splade⟩,
  ⟨"sparse_linear.weight", none, .sparseLinear⟩,
  ⟨"colbert_linear.weight", none, .colbert⟩,
  ⟨"classifier.dense.weight", some "classifier.out_proj.weight", .reranker⟩]

def requiredEncoderTensors : List String := ["token_embd.weight"]

def readArchFields (p : Probe) (arch : Bytes) (d : GgufDesc) : GgufDesc :=
  if arch = [] then d
  else
    { d with
      vocabSize := p.getArchI32 arch "vocab_size"
      embeddingLength :=
        (p.getArchI32 arch "embedding_length").or (p.getArchI32 arch "hidden_size")
      blockCount := (p.getArchI32 arch "block_count").or (p.getArchI32 arch "num_hidden_layers")
      contextLength :=
        (p.getArchI32 arch "context_length").or (p.getArchI32 arch "max_position_embeddings")
      colbertDim := p.getArchI32 arch "colbert_dim" }

def readSpecialTokens (p : Probe) (d : GgufDesc) : GgufDesc :=
  let pad := p.getI32 (ascii "tokenizer.ggml.pad_token_id")
  let bos := p.getI32 (ascii "tokenizer.ggml.bos_token_id")
  let eos := p.getI32 (ascii "tokenizer.ggml.eos_token_id")
  let cls := p.getI32 (ascii "tokenizer.ggml.cls_token_id")
  let separator := p.getI32 (ascii "tokenizer.ggml.separator_token_id")
  let any := pad.isSome || bos.isSome || eos.isSome || cls.isSome || separator.isSome
  { d with
    padTokenId := pad
    bosTokenId := bos
    eosTokenId := eos
    clsTokenId := cls
    separatorTokenId := separator
    capabilities := if any then insert .specialTokens d.capabilities else d.capabilities }

def addCapability (p : Probe) (caps : Capabilities) (rule : CapabilityRule) : Capabilities :=
  if p.hasTensor (ascii rule.tensor) then
    let caps := insert rule.cap caps
    match rule.companion with
    | some companion =>
      if p.hasTensor (ascii companion) ∧ rule.cap = .splade then insert .spladeBias caps else caps
    | none => caps
  else caps

/-- A file with both heads is decided by the shape of its linear one. -/
def resolveFormula (p : Probe) (d : GgufDesc) : SparseFormula × GgufDesc :=
  let splade := GgufCap.splade ∈ d.capabilities
  let linear := GgufCap.sparseLinear ∈ d.capabilities
  if splade ∧ linear then
    match p.tensorNumel (ascii "sparse_linear.weight"), d.vocabSize with
    | some outDim, some vocabSize =>
      if outDim = 1 then (.scalar, d.noteMissing (ascii "sparse_linear.out_dim"))
      else if (outDim : Int) = vocabSize then (.splade, d)
      else (.unknown, d)
    | _, _ => (.unknown, d)
  else if splade then (.splade, d)
  else if linear then (.scalar, d)
  else (.unknown, d)

/-- The capabilities the tensors of a file establish. -/
def headCapabilities (p : Probe) (caps : Capabilities) : Capabilities :=
  let caps := capabilityRules.foldl (addCapability p) (insert .dense caps)
  if GgufCap.splade ∈ caps ∧ ¬p.hasTensor (ascii "mlm_head.weight") then insert .tiedDecoder caps
  else caps

/-- A sparse claim needs the vocabulary it is about. -/
def refuseWithoutVocab (d : GgufDesc) : GgufDesc :=
  if (GgufCap.splade ∈ d.capabilities ∨ GgufCap.sparseLinear ∈ d.capabilities) ∧
      d.vocabSize = none then
    { d with
      capabilities := d.capabilities \ {.splade, .sparseLinear}
      sparseFormula := .unknown
      diagnostic := snprintf 256 (ascii "sparse head present but <arch>.vocab_size is absent") }
  else d

/-- The description of a file that has the tensors of an encoder. -/
def classifyHeads (p : Probe) (d : GgufDesc) : GgufDesc :=
  let d := readSpecialTokens p { d with capabilities := headCapabilities p d.capabilities }
  let (formula, d) := resolveFormula p d
  refuseWithoutVocab { d with sparseFormula := formula }

/-- The names of the model, as far as the header gives them. -/
def describeNames (p : Probe) (nTensors : Nat) : GgufDesc :=
  let d :=
    match p.getStr (ascii "general.architecture") with
    | some arch => { GgufDesc.zero with architecture := snprintf 64 arch }
    | none => GgufDesc.zero.noteMissing (ascii "general.architecture")
  { d with name := snprintf 128 ((p.getStr (ascii "general.name")).getD []), nTensors }

/-- What the header says, with the fields that are missing from it. -/
def describe (p : Probe) (nTensors : Nat) : GgufDesc :=
  let arch := (p.getStr (ascii "general.architecture")).getD []
  let d := readArchFields p arch (describeNames p nTensors)
  let d := if d.vocabSize = none then d.noteMissing (ascii "<arch>.vocab_size") else d
  if d.embeddingLength = none then d.noteMissing (ascii "<arch>.embedding_length") else d

def classify (p : Probe) : GgufDesc :=
  match p with
  | none => { GgufDesc.zero with diagnostic := snprintf 256 (ascii "not a readable GGUF file") }
  | some header =>
    let d := describe p header.nTensors
    match requiredEncoderTensors.find? fun t => ¬p.hasTensor (ascii t) with
    | some t =>
      { d.noteMissing (ascii t) with
        diagnostic := snprintf 256 (ascii "missing encoder tensor '" ++ ascii t ++ ascii "'") }
    | none => classifyHeads p d

/-- `lembed_gguf_capability_summary` -/
def capabilitySummary (desc : Option GgufDesc) : String :=
  match desc with
  | none => "unsupported"
  | some d =>
    if d.diagnostic ≠ [] ∧ d.capabilities = ∅ then "unsupported"
    else if (GgufCap.splade ∈ d.capabilities ∨ GgufCap.sparseLinear ∈ d.capabilities) ∧
        d.sparseFormula ≠ .unknown then "sparse"
    else if GgufCap.dense ∈ d.capabilities then "dense"
    else "unsupported"

end LibEmbedding
