import LibEmbedding.GgufSession
import LibEmbedding.TokenizerBounds

/-!
# What a load checks

Each step of a load, read as what it accepts. Two checks come after the first member of
the session is assigned; what comes before them makes both pass, so a load that fails
leaves the session as it was.
-/

namespace LibEmbedding

open Foundation

-- ---------------------------------------------------------------------------
-- The header
-- ---------------------------------------------------------------------------

theorem openWeights_ok : openWeights path file = .ok o ↔
    path.getD [] ≠ [] ∧ file = some o.header ∧ HparamsRead (some o.header) o.hparams ∧
      o.specialIds = readSpecialIds (some o.header) o.hparams.nVocab := by
  unfold openWeights
  simp only [bind_ok, refuseUnless_ok]
  constructor
  · rintro ⟨_, hpath, h⟩
    cases file with
    | none => cases h
    | some header =>
      simp only [bind_ok, readHparams_ok, pure_ok] at h
      obtain ⟨hp, hread, rfl⟩ := h
      exact ⟨hpath, rfl, hread, rfl⟩
  · rintro ⟨hpath, rfl, hread, hids⟩
    refine ⟨(), hpath, ?_⟩
    simp only [bind_ok, readHparams_ok, pure_ok]
    exact ⟨o.hparams, hread, hids ▸ rfl⟩

/-- What the inspector has to say of a header for a session to accept it. -/
structure Accepted (d : GgufDesc) : Prop where
  diagnostic : d.diagnostic = []
  splade : GgufCap.splade ∈ d.capabilities
  formula : d.sparseFormula = .splade
  vocabSize : d.vocabSize.isSome
  missing : d.missingHparams = []
  notLinear : GgufCap.sparseLinear ∉ d.capabilities

theorem accept_ok {p : Probe} : accept p = .ok u ↔ p.isSome ∧ Accepted (classify p) := by
  simp only [accept, bind_ok, refuseUnless_ok]
  constructor
  · rintro ⟨_, hvalid, _, hdiagnostic, _, hsplade, _, hformula, _, hvocab, _, hmissing, hlinear⟩
    exact ⟨hvalid, hdiagnostic, hsplade, hformula, hvocab, hmissing, hlinear⟩
  · rintro ⟨hvalid, hdiagnostic, hsplade, hformula, hvocab, hmissing, hlinear⟩
    exact ⟨(), hvalid, (), hdiagnostic, (), hsplade, (), hformula, (), hvocab, (), hmissing,
      hlinear⟩

theorem readTokens_ok {p : Probe} : readTokens p hp = .ok tokens ↔
    p.getArrStr (ascii "tokenizer.ggml.tokens") = some tokens ∧ knownTokenizer p ∧
      (tokens.length : Int) = hp.nVocab := by
  unfold readTokens
  split
  · simp_all
  · rename_i found hfound
    have hbound := Probe.getArrStr_bounded hfound
    have hsize : toInt32 found.length = found.length :=
      toInt32_eq (lt_of_le_of_lt hbound (by decide))
    simp only [bind_ok, refuseUnless_ok, pure_ok, hfound, hsize, Option.some.injEq]
    constructor
    · rintro ⟨_, hknown, _, hlength, rfl⟩
      exact ⟨rfl, hknown, hlength⟩
    · rintro ⟨rfl, hknown, hlength⟩
      exact ⟨(), hknown, (), hlength, rfl⟩

-- ---------------------------------------------------------------------------
-- The tensors
-- ---------------------------------------------------------------------------

/-- The tensor of a name, an empty one when there is none. -/
def GgufHeader.stored (header : GgufHeader) (name : Bytes) : GgufTensor :=
  (header.tensor name).getD ⟨.other, 0, 0, 0, 0, false, fun _ _ _ _ => 0⟩

/-- The slots of a layer, by the names of their tensors. -/
def LayerWeights.named {τ : Type} (f : Bytes → τ) (il : Nat) : LayerWeights τ where
  ln1W := f (layerName il "ln1.weight")
  ln1B := f (layerName il "ln1.bias")
  qW := f (layerName il "attn.q.weight")
  qB := f (layerName il "attn.q.bias")
  kW := f (layerName il "attn.k.weight")
  kB := f (layerName il "attn.k.bias")
  vW := f (layerName il "attn.v.weight")
  vB := f (layerName il "attn.v.bias")
  oW := f (layerName il "attn.o.weight")
  oB := f (layerName il "attn.o.bias")
  ln2W := f (layerName il "ln2.weight")
  ln2B := f (layerName il "ln2.bias")
  fc1W := f (layerName il "ffn.fc1.weight")
  fc1B := f (layerName il "ffn.fc1.bias")
  fc2W := f (layerName il "ffn.fc2.weight")
  fc2B := f (layerName il "ffn.fc2.bias")

/-- The slots outside the layers, by the names of their tensors. -/
def HeadWeights.named {τ : Type} (f : Bytes → τ) : HeadWeights τ where
  tokEmbd := f (ascii "token_embd.weight")
  posEmbd := f (ascii "position_embd.weight")
  typeEmbd := f (ascii "token_type_embd.weight")
  embdLnW := f (ascii "embd_ln.weight")
  embdLnB := f (ascii "embd_ln.bias")
  mlmTransformW := f (ascii "mlm_transform.weight")
  mlmTransformB := f (ascii "mlm_transform.bias")
  mlmLnW := f (ascii "mlm_ln.weight")
  mlmLnB := f (ascii "mlm_ln.bias")
  mlmBias := f (ascii "mlm_bias")

theorem takeLayers_named {τ : Type} (f : Bytes → τ) (rest : List τ) (start n : Nat) :
    takeLayers n (((List.range' start n).flatMap layerNames).map f ++ rest) =
      some ((List.range' start n).map (LayerWeights.named f), rest) := by
  induction n generalizing start with
  | zero => rfl
  | succ n ih =>
    have htail := ih (start + 1)
    rw [List.range'_succ, List.flatMap_cons, List.map_append, List.append_assoc]
    simp only [layerNames, layerSuffixes, List.map_cons, List.map_nil, List.cons_append,
      List.nil_append, takeLayers, LayerWeights.take] at htail ⊢
    rw [Option.bind_eq_bind, Option.bind_some, htail]
    rfl

/-- Every tensor is bound to the slot of its name. -/
theorem bindWeights_named {τ : Type} (f : Bytes → τ) (nLayer : Nat) :
    bindWeights nLayer ((requiredNames nLayer).map f) =
      some (HeadWeights.named f, (List.range nLayer).map (LayerWeights.named f)) := by
  have hlayers := takeLayers_named f (headNames.map (f ∘ ascii)) 0 nLayer
  simp only [requiredNames, embeddingNames, headNames, List.map_append, List.map_cons,
    List.map_nil, List.cons_append, List.nil_append, bindWeights,
    ← List.range_eq_range', Function.comp] at hlayers ⊢
  rw [hlayers]
  rfl

theorem copyTensor_ok : copyTensor env header name = .ok t ↔
    header.tensor name = some t ∧ t.hasData ∧ env.dup name := by
  unfold copyTensor
  split
  · simp_all
  · rename_i src hsrc
    by_cases hdata : src.hasData <;> by_cases hdup : env.dup name <;>
      simp only [hdata, hdup, hsrc, if_true, Bool.false_eq_true, if_false, reduceCtorEq,
        Except.ok.injEq, Option.some.injEq, false_iff, not_and] <;> grind

/-- The weights of a header. -/
def OpenWeights.weights (o : OpenWeights) : Weights where
  hparams := o.hparams
  nType := toInt32 (o.header.stored (ascii "token_type_embd.weight")).ne1
  head := .named o.header.stored
  layers := (List.range o.hparams.nLayer.toNat).map (.named o.header.stored)
  specialIds := o.specialIds

theorem OpenWeights.weights_typeEmbd (o : OpenWeights) :
    o.weights.head.typeEmbd = o.header.stored (ascii "token_type_embd.weight") := by
  simp only [OpenWeights.weights, HeadWeights.named]

theorem OpenWeights.weights_nType (o : OpenWeights) :
    o.weights.nType = toInt32 o.weights.head.typeEmbd.ne1 := by
  simp only [OpenWeights.weights, HeadWeights.named]

theorem OpenWeights.weights_posEmbd (o : OpenWeights) :
    o.weights.head.posEmbd = o.header.stored (ascii "position_embd.weight") := by
  simp only [OpenWeights.weights, HeadWeights.named]

/-- Every required tensor is there, with data and room for its copy. -/
def OpenWeights.Holds (o : OpenWeights) (env : LoadEnv) : Prop :=
  ∀ name ∈ requiredNames o.hparams.nLayer.toNat,
    ∃ t, o.header.tensor name = some t ∧ t.hasData ∧ env.dup name

theorem loadTensors_ok : loadTensors o env = .ok w ↔
    o.Holds env ∧ env.backend ∧ env.context ∧ env.buffer ∧
      o.weights.head.typeEmbd.type = .f32 ∧ 1 ≤ o.weights.nType ∧ w = o.weights := by
  have hcopy (name : Bytes) (t : GgufTensor) (h : copyTensor env o.header name = .ok t) :
      t = o.header.stored name := by
    rw [GgufHeader.stored, (copyTensor_ok.mp h).1, Option.getD_some]
  unfold loadTensors
  simp only [OpenWeights.weights]
  split
  · rename_i missing hmissing
    have hnone := List.find?_some hmissing
    have hmem := List.mem_of_find?_eq_some hmissing
    constructor
    · rintro h
      cases h
    · rintro ⟨hholds, -⟩
      obtain ⟨t, ht, -⟩ := hholds missing hmem
      simp [ht] at hnone
  · simp only [bind_ok, refuseUnless_ok, mapM_ok hcopy]
    constructor
    · rintro ⟨_, hbackend, _, hcontext, dst, ⟨hall, rfl⟩, _, hbuffer, h⟩
      simp only [bindWeights_named, bind_ok, refuseUnless_ok, pure_ok] at h
      obtain ⟨_, htype, _, hrows, rfl⟩ := h
      exact ⟨fun name hname => ⟨_, copyTensor_ok.mp (hall name hname)⟩, hbackend, hcontext,
        hbuffer, htype, hrows, rfl⟩
    · rintro ⟨hholds, hbackend, hcontext, hbuffer, htype, hrows, rfl⟩
      refine ⟨(), hbackend, (), hcontext, _, ⟨fun name hname => ?_, rfl⟩, (), hbuffer, ?_⟩
      · obtain ⟨t, ht⟩ := hholds name hname
        have hok := copyTensor_ok.mpr ht
        rwa [← hcopy name t hok]
      · simp only [bindWeights_named, bind_ok, refuseUnless_ok, pure_ok]
        exact ⟨(), htype, (), hrows, rfl⟩

-- ---------------------------------------------------------------------------
-- The session
-- ---------------------------------------------------------------------------

/-- What `openModel` has found when it succeeds. -/
structure Opened (path : Option Bytes) (file : Option GgufHeader) (env : LoadEnv)
    (o : OpenWeights) (tokens : List Bytes) : Prop where
  path : path.getD [] ≠ []
  file : file = some o.header
  hparams : HparamsRead (some o.header) o.hparams
  specialIds : o.specialIds = readSpecialIds (some o.header) o.hparams.nVocab
  accepted : Accepted (classify (some o.header))
  holds : o.Holds env
  backend : env.backend
  context : env.context
  buffer : env.buffer
  typeF32 : o.weights.head.typeEmbd.type = .f32
  typeRows : 1 ≤ o.weights.nType
  listed : Probe.getArrStr (some o.header) (ascii "tokenizer.ggml.tokens") = some tokens
  known : knownTokenizer (some o.header)
  size : (tokens.length : Int) = o.hparams.nVocab

theorem openModel_ok : openModel path file env = .ok (p, weights, tokens) ↔
    ∃ o, Opened path file env o tokens ∧ p = some o.header ∧ weights = o.weights := by
  simp only [openModel, bind_ok, openWeights_ok, accept_ok, loadTensors_ok, readTokens_ok,
    pure_ok, Prod.mk.injEq]
  constructor
  · rintro ⟨o, ⟨hpath, rfl, hread, hids⟩, _, ⟨-, haccepted⟩, _,
      ⟨hholds, hbackend, hcontext, hbuffer, htype, hrows, rfl⟩, _, ⟨hlisted, hknown, hsize⟩,
      rfl, rfl, rfl⟩
    exact ⟨o, ⟨hpath, rfl, hread, hids, haccepted, hholds, hbackend, hcontext, hbuffer, htype,
      hrows, hlisted, hknown, hsize⟩, rfl, rfl⟩
  · rintro ⟨o, h, rfl, rfl⟩
    exact ⟨o, ⟨h.path, h.file, h.hparams, h.specialIds⟩, (), ⟨rfl, h.accepted⟩, o.weights,
      ⟨h.holds, h.backend, h.context, h.buffer, h.typeF32, h.typeRows, rfl⟩, tokens,
      ⟨h.listed, h.known, h.size⟩, rfl, rfl, rfl⟩

namespace SparseSession

variable {path : Option Bytes} {weights : Weights} {tok : TokenizerWrapper}

theorem loadTokens_total {p : Probe} (h : tokens ≠ []) (maxLength : Int) (tok : TokenizerWrapper) :
    ∃ u, loadTokens p tokens maxLength tok = some u :=
  TokenizerWrapper.loadVocab_total h ..

theorem loadTokens_idsBelow {p : Probe} {maxLength : Int}
    (h : loadTokens p tokens maxLength tok = some u) : u.IdsBelow tokens.length :=
  TokenizerWrapper.loadVocab_idsBelow h

theorem cappedLength_pos (maxLength : Int) (h : 0 < nPos) : 0 < cappedLength maxLength nPos := by
  unfold cappedLength
  split
  · exact lt_min ‹_› h
  · exact h

/-- The members a load sets once its model is open. -/
def reloaded (s : SparseSession) (path : Option Bytes) (weights : Weights)
    (tok : TokenizerWrapper) (maxLength : Int) : SparseSession :=
  { s with
    weights := some weights
    generation := s.generation + 1
    tok
    path := path.getD []
    specialIds := weights.specialIds
    vocabSize := weights.hparams.nVocab
    maxLength := cappedLength maxLength weights.hparams.nPos }

/-- Once the model is open nothing can fail: the vocabulary has as many entries as the
header says, more than none, and every special id it resolves to is one of them. -/
theorem loadFromFile_opened (s : SparseSession) (maxLength : Int)
    (h : Opened path file env o tokens) :
    ∃ tok, loadTokens (some o.header) tokens (cappedLength maxLength o.hparams.nPos) s.tok =
        some tok ∧
      s.loadFromFile path file env maxLength = (.ok (), s.reloaded path o.weights tok maxLength) := by
  have hopen := openModel_ok.mpr ⟨o, h, rfl, rfl⟩
  obtain ⟨tok, htok⟩ := loadTokens_total (p := some o.header) (Probe.getArrStr_ne_nil h.listed)
    (cappedLength maxLength o.hparams.nPos) s.tok
  have hpad := (loadTokens_idsBelow htok).pad
  rw [IdBelow, h.size] at hpad
  refine ⟨tok, htok, ?_⟩
  have hload : s.loadFromFile path file env maxLength =
      if tok.padTokenId < 0 ∨ o.weights.hparams.nVocab ≤ tok.padTokenId then
        (.error (ascii "GGUF pad token id is outside the vocabulary"),
          { s with maxLength := cappedLength maxLength o.hparams.nPos, tok })
      else (.ok (), s.reloaded path o.weights tok maxLength) := by
    simp only [loadFromFile, hopen]
    rw [show o.weights.hparams = o.hparams from rfl, htok]
    rfl
  rw [hload]
  exact if_neg fun hbad => hbad.elim (not_lt.mpr hpad.1) (not_le.mpr hpad.2)

theorem loadFromFile_refused (s : SparseSession) (maxLength : Int)
    (h : openModel path file env = .error err) :
    s.loadFromFile path file env maxLength = (.error err, s) := by
  unfold loadFromFile
  rw [h]

/-- A load fails and changes nothing, or sets the members from what it opened. -/
theorem loadFromFile_cases (s : SparseSession) (path : Option Bytes) (file : Option GgufHeader)
    (env : LoadEnv) (maxLength : Int) :
    (∃ err, s.loadFromFile path file env maxLength = (.error err, s)) ∨
      ∃ o tokens tok, Opened path file env o tokens ∧
        loadTokens (some o.header) tokens (cappedLength maxLength o.hparams.nPos) s.tok =
          some tok ∧
        s.loadFromFile path file env maxLength =
          (.ok (), s.reloaded path o.weights tok maxLength) := by
  cases hopen : openModel path file env with
  | error reason => exact .inl ⟨reason, s.loadFromFile_refused maxLength hopen⟩
  | ok opened =>
    obtain ⟨p, weights, tokens⟩ := opened
    obtain ⟨o, h, rfl, rfl⟩ := openModel_ok.mp hopen
    obtain ⟨tok, htok, hload⟩ := s.loadFromFile_opened maxLength h
    exact .inr ⟨o, tokens, tok, h, htok, hload⟩

theorem loadFromFile_ok (s : SparseSession) (path : Option Bytes) (file : Option GgufHeader)
    (env : LoadEnv) (maxLength : Int) :
    (s.loadFromFile path file env maxLength).1 = .ok () ↔
      ∃ o tokens, Opened path file env o tokens := by
  constructor
  · intro h
    rcases s.loadFromFile_cases path file env maxLength with ⟨err, hload⟩ | ⟨o, tokens, _, h', -⟩
    · rw [hload] at h
      cases h
    · exact ⟨o, tokens, h'⟩
  · rintro ⟨o, tokens, h⟩
    obtain ⟨tok, -, hload⟩ := s.loadFromFile_opened maxLength h
    rw [hload]

end SparseSession

-- ---------------------------------------------------------------------------
-- A file
-- ---------------------------------------------------------------------------

def sampleKeys : List (String × GgufValue) := [
  ("general.architecture", .string (ascii "bert")),
  ("bert.embedding_length", .uint32 1),
  ("bert.block_count", .uint32 1),
  ("bert.attention.head_count", .uint32 1),
  ("bert.feed_forward_length", .uint32 1),
  ("bert.context_length", .uint32 4),
  ("bert.vocab_size", .uint32 1),
  ("bert.attention.layer_norm_epsilon", .float32 (.finite (1 / 2))),
  ("tokenizer.ggml.tokens", .strings [ascii "a"] (by decide))]

/-- A file with a vocabulary of one token and one layer, without the given entries. Every
table has one row, but for the positions. -/
def sampleHeader (absent : List String) (positions : Nat) : GgufHeader where
  key name := ((sampleKeys.filter (·.1 ∉ absent)).find? (ascii ·.1 = name)).map (·.2)
  tensor name :=
    if name ∈ requiredNames 1 ∧ name ∉ absent.map ascii then
      some ⟨.f32, 1, if name = ascii "position_embd.weight" then positions else 1, 1, 1, true,
        fun _ _ _ _ => 1⟩
    else none
  nTensors := 26

def sampleHparams : SpladeHparams := ⟨1, 1, 1, 1, 1, 4, .finite (1 / 2), ascii "bert"⟩

theorem sample_hparams : readHparams (some (sampleHeader [] 4)) = .ok sampleHparams := by
  decide +kernel

theorem sample_loads : (SparseSession.new.loadFromFile (some (ascii "a.gguf"))
    (some (sampleHeader [] 4)) .ample 0).1 = .ok () := by
  decide +kernel

namespace SparseSession

end SparseSession

end LibEmbedding
