import LibEmbedding.GgufProbe

/-!
# Loading the weights of a SPLADE GGUF

`gguf_weights.hpp`: the hyper-parameters from the header, the list of the tensors the
encoder and the head need, and their binding to named slots. Allocations may fail; the
environment says which do.
-/

namespace LibEmbedding

open Foundation

structure SpladeHparams where
  nEmbd : Int
  nHead : Int
  nLayer : Int
  nFf : Int
  nVocab : Int
  nPos : Int
  eps : CFloat
  arch : Bytes
  deriving DecidableEq

structure LayerWeights (τ : Type) where
  ln1W : τ
  ln1B : τ
  qW : τ
  qB : τ
  kW : τ
  kB : τ
  vW : τ
  vB : τ
  oW : τ
  oB : τ
  ln2W : τ
  ln2B : τ
  fc1W : τ
  fc1B : τ
  fc2W : τ
  fc2B : τ

structure HeadWeights (τ : Type) where
  tokEmbd : τ
  posEmbd : τ
  typeEmbd : τ
  embdLnW : τ
  embdLnB : τ
  mlmTransformW : τ
  mlmTransformB : τ
  mlmLnW : τ
  mlmLnB : τ
  mlmBias : τ

/-- Fails with the given reason. -/
def refuseUnless (p : Prop) [Decidable p] (err : Bytes) : Except Bytes Unit :=
  if p then .ok () else .error err

theorem refuseUnless_ok [Decidable p] : refuseUnless p err = .ok u ↔ p := by
  unfold refuseUnless
  split <;> simp_all

-- ---------------------------------------------------------------------------
-- Hyper-parameters
-- ---------------------------------------------------------------------------

/-- The first known spelling of a field that the header has. -/
def readI32Any (p : Probe) (arch : Bytes) (fields : List String) : Option Int :=
  fields.findSome? fun field => p.getArchI32 arch field

def missingField (label : String) (arch : Bytes) : Bytes :=
  ascii "GGUF header has no " ++ ascii label ++ ascii " for architecture '" ++ arch ++ ascii "'"

def readField (p : Probe) (arch : Bytes) (fields : List String) (label : String) :
    Except Bytes Int :=
  match readI32Any p arch fields with
  | some value => .ok value
  | none => .error (missingField label arch)

/-- The first known spelling of the epsilon. -/
def readEps (p : Probe) (arch : Bytes) : Option CFloat :=
  ["attention.layer_norm_epsilon", "layer_norm_eps", "layer_norm_epsilon"].findSome? fun field =>
    p.getArchF32 arch field

/-- Required rather than defaulted. -/
def requireEps (p : Probe) (arch : Bytes) : Except Bytes CFloat :=
  match readEps p arch with
  | some eps => .ok eps
  | none => .error (missingField "<arch>.attention.layer_norm_epsilon" arch)

def embeddingLengthFields : List String := ["embedding_length", "hidden_size"]
def blockCountFields : List String := ["block_count", "num_hidden_layers"]
def headCountFields : List String :=
  ["attention.head_count", "num_attention_heads", "attention.n_head"]
/-- The third spelling of the source's table is not tried. -/
def feedForwardFields : List String := ["feed_forward_length", "intermediate_size"]
def contextLengthFields : List String := ["context_length", "max_position_embeddings"]

def readHparams (p : Probe) : Except Bytes SpladeHparams := do
  let arch := (p.getStr (ascii "general.architecture")).getD []
  refuseUnless (arch ≠ []) (ascii "GGUF header has no general.architecture")
  let nEmbd ← readField p arch embeddingLengthFields "<arch>.embedding_length"
  let nLayer ← readField p arch blockCountFields "<arch>.block_count"
  let nHead ← readField p arch headCountFields "<arch>.attention.head_count"
  let nFf ← readField p arch feedForwardFields "<arch>.feed_forward_length"
  let nPos ← readField p arch contextLengthFields "<arch>.context_length"
  let nVocab ← readField p arch ["vocab_size"] "<arch>.vocab_size"
  let eps ← requireEps p arch
  refuseUnless (0 < nEmbd ∧ 0 < nHead ∧ 0 < nLayer ∧ 0 < nFf ∧ 0 < nVocab ∧ 0 < nPos)
    (ascii "GGUF header carries a non-positive BERT dimension")
  refuseUnless (nEmbd.tmod nHead = 0)
    (ascii "GGUF hidden size is not divisible by the attention head count")
  refuseUnless (eps.nonpositive = false) (ascii "GGUF LayerNorm epsilon is not positive")
  return ⟨nEmbd, nHead, nLayer, nFf, nVocab, nPos, eps, arch⟩

/-- The hyper-parameters a header gives, every one of them present and usable. -/
structure HparamsRead (p : Probe) (hp : SpladeHparams) : Prop where
  arch : p.getStr (ascii "general.architecture") = some hp.arch
  archNe : hp.arch ≠ []
  nEmbd : readI32Any p hp.arch embeddingLengthFields = some hp.nEmbd
  nLayer : readI32Any p hp.arch blockCountFields = some hp.nLayer
  nHead : readI32Any p hp.arch headCountFields = some hp.nHead
  nFf : readI32Any p hp.arch feedForwardFields = some hp.nFf
  nPos : readI32Any p hp.arch contextLengthFields = some hp.nPos
  nVocab : readI32Any p hp.arch ["vocab_size"] = some hp.nVocab
  eps : readEps p hp.arch = some hp.eps
  positive : 0 < hp.nEmbd ∧ 0 < hp.nHead ∧ 0 < hp.nLayer ∧ 0 < hp.nFf ∧ 0 < hp.nVocab ∧
    0 < hp.nPos
  divides : hp.nEmbd.tmod hp.nHead = 0
  epsPositive : hp.eps.nonpositive = false

theorem readI32Any_fits {p : Probe} (h : readI32Any p arch fields = some v) : FitsInt v := by
  obtain ⟨field, -, hfield⟩ := List.exists_of_findSome?_eq_some h
  unfold Probe.getArchI32 at hfield
  split at hfield
  · cases hfield
  · exact Probe.getI32_fits hfield

theorem readField_ok {p : Probe} :
    readField p arch fields label = .ok v ↔ readI32Any p arch fields = some v := by
  unfold readField
  split <;> simp_all

theorem requireEps_ok {p : Probe} : requireEps p arch = .ok eps ↔ readEps p arch = some eps := by
  unfold requireEps
  split <;> simp_all

theorem readHparams_ok {p : Probe} : readHparams p = .ok hp ↔ HparamsRead p hp := by
  simp only [readHparams, bind_ok, refuseUnless_ok, readField_ok, requireEps_ok, pure_ok]
  constructor
  · rintro ⟨_, hne, nEmbd, hembd, nLayer, hlayer, nHead, hhead, nFf, hff, nPos, hpos, nVocab,
      hvocab, eps, heps, _, hpositive, _, hdivides, _, hnonpositive, rfl⟩
    cases hstr : p.getStr (ascii "general.architecture") with
    | none => simp [hstr] at hne
    | some arch =>
      simp only [hstr, Option.getD_some] at hne hembd hlayer hhead hff hpos hvocab heps ⊢
      exact ⟨hstr, hne, hembd, hlayer, hhead, hff, hpos, hvocab, heps, hpositive, hdivides,
        hnonpositive⟩
  · rintro ⟨harch, hne, hembd, hlayer, hhead, hff, hpos, hvocab, heps, hpositive, hdivides,
      hnonpositive⟩
    simp only [harch, Option.getD_some]
    exact ⟨(), hne, _, hembd, _, hlayer, _, hhead, _, hff, _, hpos, _, hvocab, _, heps, (),
      hpositive, (), hdivides, (), hnonpositive, rfl⟩

def specialIdKeys : List String := [
  "tokenizer.ggml.pad_token_id",
  "tokenizer.ggml.bos_token_id",
  "tokenizer.ggml.eos_token_id",
  "tokenizer.ggml.cls_token_id",
  "tokenizer.ggml.separator_token_id"]

def addSpecialId (p : Probe) (nVocab : Int) (ids : List Int) (key : String) : List Int :=
  match p.getI32 (ascii key) with
  | some id => if id < 0 ∨ nVocab ≤ id ∨ id ∈ ids then ids else ids ++ [id]
  | none => ids

def readSpecialIds (p : Probe) (nVocab : Int) : List Int :=
  specialIdKeys.foldl (addSpecialId p nVocab) []

/-- What `open` leaves: a header that was read, and what was resolved from it. -/
structure OpenWeights where
  header : GgufHeader
  hparams : SpladeHparams
  specialIds : List Int

/-- `file` is what the reader makes of the file at `path`. -/
def openWeights (path : Option Bytes) (file : Option GgufHeader) : Except Bytes OpenWeights := do
  let path := path.getD []
  refuseUnless (path ≠ []) (ascii "empty GGUF path")
  match file with
  | none => .error (ascii "cannot read GGUF file '" ++ path ++ ascii "'")
  | some header =>
    let hparams ← readHparams (some header)
    return ⟨header, hparams, readSpecialIds (some header) hparams.nVocab⟩

-- ---------------------------------------------------------------------------
-- Tensors
-- ---------------------------------------------------------------------------

def embeddingNames : List String := [
  "token_embd.weight", "position_embd.weight", "token_type_embd.weight",
  "embd_ln.weight", "embd_ln.bias"]

def layerSuffixes : List String := [
  "ln1.weight", "ln1.bias",
  "attn.q.weight", "attn.q.bias", "attn.k.weight", "attn.k.bias",
  "attn.v.weight", "attn.v.bias", "attn.o.weight", "attn.o.bias",
  "ln2.weight", "ln2.bias",
  "ffn.fc1.weight", "ffn.fc1.bias", "ffn.fc2.weight", "ffn.fc2.bias"]

def headNames : List String := [
  "mlm_transform.weight", "mlm_transform.bias", "mlm_ln.weight", "mlm_ln.bias", "mlm_bias"]

/-- `std::to_string` -/
def stdToString (n : Nat) : Bytes := ascii n.repr

def layerName (il : Nat) (suffix : String) : Bytes :=
  ascii "enc." ++ stdToString il ++ ascii "." ++ ascii suffix

def layerNames (il : Nat) : List Bytes := layerSuffixes.map (layerName il)

/-- The names `collect_required_names` adds, in order. -/
def requiredNames (nLayer : Nat) : List Bytes :=
  embeddingNames.map ascii ++ (List.range nLayer).flatMap layerNames ++ headNames.map ascii

/-- Reads sixteen pointers off the front of a list, as `t[i++]` does. -/
def LayerWeights.take {τ : Type} : List τ → Option (LayerWeights τ × List τ)
  | ln1W :: ln1B :: qW :: qB :: kW :: kB :: vW :: vB :: oW :: oB :: ln2W :: ln2B ::
      fc1W :: fc1B :: fc2W :: fc2B :: rest =>
    some (⟨ln1W, ln1B, qW, qB, kW, kB, vW, vB, oW, oB, ln2W, ln2B, fc1W, fc1B, fc2W, fc2B⟩, rest)
  | _ => none

def takeLayers {τ : Type} : Nat → List τ → Option (List (LayerWeights τ) × List τ)
  | 0, t => some ([], t)
  | n + 1, t => do
    let (layer, t) ← LayerWeights.take t
    let (layers, t) ← takeLayers n t
    return (layer :: layers, t)

/-- Maps the flat list back onto the named slots. -/
def bindWeights {τ : Type} (nLayer : Nat) (t : List τ) :
    Option (HeadWeights τ × List (LayerWeights τ)) :=
  match t with
  | tokEmbd :: posEmbd :: typeEmbd :: embdLnW :: embdLnB :: t =>
    match takeLayers nLayer t with
    | some (layers, mlmTransformW :: mlmTransformB :: mlmLnW :: mlmLnB :: mlmBias :: _) =>
      some (⟨tokEmbd, posEmbd, typeEmbd, embdLnW, embdLnB,
        mlmTransformW, mlmTransformB, mlmLnW, mlmLnB, mlmBias⟩, layers)
    | _ => none
  | _ => none

/-- Which allocations of a load succeed. -/
structure LoadEnv where
  backend : Bool
  context : Bool
  dup : Bytes → Bool
  buffer : Bool

/-- Every allocation succeeds. -/
def LoadEnv.ample : LoadEnv := ⟨true, true, fun _ => true, true⟩

/-- Weights that were loaded. -/
structure Weights where
  hparams : SpladeHparams
  nType : Int
  head : HeadWeights GgufTensor
  layers : List (LayerWeights GgufTensor)
  specialIds : List Int

/-- Finds a tensor in the blob and makes room for its copy. -/
def copyTensor (env : LoadEnv) (header : GgufHeader) (name : Bytes) : Except Bytes GgufTensor :=
  match header.tensor name with
  | none => .error (ascii "tensor '" ++ name ++ ascii "' carries no data")
  | some src =>
    if src.hasData then
      if env.dup name then .ok src
      else .error (ascii "out of memory while copying tensor '" ++ name ++ ascii "'")
    else .error (ascii "tensor '" ++ name ++ ascii "' carries no data")

def loadTensors (w : OpenWeights) (env : LoadEnv) : Except Bytes Weights := do
  let nLayer := w.hparams.nLayer.toNat
  let names := requiredNames nLayer
  match names.find? fun name => (w.header.tensor name).isNone with
  | some missing => .error (ascii "missing tensor '" ++ missing ++ ascii "'")
  | none =>
    refuseUnless env.backend (ascii "cannot initialise the ggml CPU backend")
    refuseUnless env.context (ascii "out of memory while allocating the weight context")
    let dst ← names.mapM (copyTensor env w.header)
    refuseUnless env.buffer (ascii "cannot allocate the weight buffer")
    match bindWeights nLayer dst with
    | none => .error []
    | some (head, layers) =>
      let nType := toInt32 head.typeEmbd.ne1
      refuseUnless (head.typeEmbd.type = .f32) (ascii "token_type_embd.weight is not F32")
      refuseUnless (1 ≤ nType) (ascii "token_type_embd.weight has no rows")
      return ⟨w.hparams, nType, head, layers, w.specialIds⟩

end LibEmbedding
