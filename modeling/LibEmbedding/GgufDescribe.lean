import LibEmbedding.GgufLoad

/-!
# The inspector and the runtime

Both read the same header. What the runtime accepts the inspector describes the same way;
the other way round the runtime asks for more than the inspector lists.
-/

namespace LibEmbedding

open Foundation

-- ---------------------------------------------------------------------------
-- The fields of a description
-- ---------------------------------------------------------------------------

namespace GgufDesc

/-- Two descriptions give the same dimensions. -/
structure SameDims (d e : GgufDesc) : Prop where
  vocabSize : d.vocabSize = e.vocabSize
  embeddingLength : d.embeddingLength = e.embeddingLength
  blockCount : d.blockCount = e.blockCount
  contextLength : d.contextLength = e.contextLength

theorem SameDims.trans (h : SameDims d e) (h' : SameDims e f) : SameDims d f :=
  ⟨h.vocabSize.trans h'.vocabSize, h.embeddingLength.trans h'.embeddingLength,
    h.blockCount.trans h'.blockCount, h.contextLength.trans h'.contextLength⟩

theorem noteMissing_sameDims (d : GgufDesc) (name : Bytes) : SameDims (d.noteMissing name) d := by
  unfold noteMissing
  split
  · exact ⟨rfl, rfl, rfl, rfl⟩
  · split <;> exact ⟨rfl, rfl, rfl, rfl⟩

end GgufDesc

open GgufDesc (SameDims noteMissing noteMissing_sameDims)

theorem resolveFormula_sameDims (p : Probe) (d : GgufDesc) :
    SameDims (resolveFormula p d).2 d := by
  unfold resolveFormula
  dsimp only
  split
  · split
    · split
      · exact noteMissing_sameDims d _
      · split <;> exact ⟨rfl, rfl, rfl, rfl⟩
    · exact ⟨rfl, rfl, rfl, rfl⟩
  · split
    · exact ⟨rfl, rfl, rfl, rfl⟩
    · split <;> exact ⟨rfl, rfl, rfl, rfl⟩

theorem refuseWithoutVocab_sameDims (d : GgufDesc) : SameDims (refuseWithoutVocab d) d := by
  unfold refuseWithoutVocab
  split <;> exact ⟨rfl, rfl, rfl, rfl⟩

theorem classifyHeads_sameDims (p : Probe) (d : GgufDesc) : SameDims (classifyHeads p d) d := by
  have hformula := resolveFormula_sameDims p
    (readSpecialTokens p { d with capabilities := headCapabilities p d.capabilities })
  exact (refuseWithoutVocab_sameDims _).trans
    ⟨hformula.vocabSize, hformula.embeddingLength, hformula.blockCount, hformula.contextLength⟩

theorem describe_sameDims (p : Probe) (nTensors : Nat) :
    SameDims (describe p nTensors) (readArchFields p
      ((p.getStr (ascii "general.architecture")).getD []) (describeNames p nTensors)) := by
  have hnoted (c : Prop) [Decidable c] (d : GgufDesc) (name : Bytes) :
      SameDims (if c then d.noteMissing name else d) d := by
    split
    · exact noteMissing_sameDims d name
    · exact ⟨rfl, rfl, rfl, rfl⟩
  exact (hnoted _ _ _).trans (hnoted _ _ _)

/-- Whatever the heads of a file are, its dimensions are those its header gives. -/
theorem classify_sameDims (header : GgufHeader) :
    SameDims (classify (some header)) (describe (some header) header.nTensors) := by
  unfold classify
  dsimp only
  split
  · have hnoted := noteMissing_sameDims (describe (some header) header.nTensors)
    exact ⟨(hnoted _).vocabSize, (hnoted _).embeddingLength, (hnoted _).blockCount,
      (hnoted _).contextLength⟩
  · exact classifyHeads_sameDims _ _

/-- The inspector reads a dimension the way the runtime does. -/
theorem readI32Any_pair (p : Probe) (arch : Bytes) (first second : String) :
    readI32Any p arch [first, second] = (p.getArchI32 arch first).or (p.getArchI32 arch second) := by
  simp only [readI32Any, List.findSome?_cons, List.findSome?_nil]
  cases p.getArchI32 arch first <;> cases p.getArchI32 arch second <;> rfl

theorem readI32Any_singleton (p : Probe) (arch : Bytes) (field : String) :
    readI32Any p arch [field] = p.getArchI32 arch field := by
  simp only [readI32Any, List.findSome?_cons, List.findSome?_nil]
  cases p.getArchI32 arch field <;> rfl

/-- The dimensions of a description, as the runtime reads them. -/
structure ReadsDims (d : GgufDesc) (p : Probe) (arch : Bytes) : Prop where
  vocabSize : d.vocabSize = readI32Any p arch ["vocab_size"]
  embeddingLength : d.embeddingLength = readI32Any p arch embeddingLengthFields
  blockCount : d.blockCount = readI32Any p arch blockCountFields
  contextLength : d.contextLength = readI32Any p arch contextLengthFields

theorem classify_readsDims {header : GgufHeader}
    (harch : Probe.getStr (some header) (ascii "general.architecture") = some arch)
    (hne : arch ≠ []) : ReadsDims (classify (some header)) (some header) arch := by
  have hdims := (classify_sameDims header).trans (describe_sameDims (some header) header.nTensors)
  rw [harch, Option.getD_some, readArchFields, if_neg hne] at hdims
  exact {
    vocabSize := hdims.vocabSize.trans (readI32Any_singleton ..).symm
    embeddingLength := hdims.embeddingLength.trans (readI32Any_pair ..).symm
    blockCount := hdims.blockCount.trans (readI32Any_pair ..).symm
    contextLength := hdims.contextLength.trans (readI32Any_pair ..).symm }

/-- A vocabulary size is read under the name of an architecture. -/
theorem classify_arch {header : GgufHeader} (h : (classify (some header)).vocabSize.isSome) :
    ∃ arch, Probe.getStr (some header) (ascii "general.architecture") = some arch ∧ arch ≠ [] := by
  have hdims := (classify_sameDims header).trans (describe_sameDims (some header) header.nTensors)
  rw [hdims.vocabSize] at h
  cases harch : Probe.getStr (some header) (ascii "general.architecture") with
  | none =>
    rw [harch] at h
    simp [readArchFields, describeNames, harch, GgufDesc.zero, noteMissing] at h
  | some arch =>
    refine ⟨arch, rfl, fun hempty => ?_⟩
    rw [harch] at h
    simp [readArchFields, describeNames, harch, GgufDesc.zero, hempty] at h

-- ---------------------------------------------------------------------------
-- From the runtime to the inspector
-- ---------------------------------------------------------------------------

theorem Accepted.summary (h : Accepted d) : capabilitySummary (some d) = "sparse" := by
  have hsparse : (GgufCap.splade ∈ d.capabilities ∨ GgufCap.sparseLinear ∈ d.capabilities) ∧
      d.sparseFormula ≠ .unknown := by
    rw [h.formula]
    exact ⟨.inl h.splade, by decide⟩
  simp only [capabilitySummary, h.diagnostic, ne_eq, not_true_eq_false, false_and, if_false,
    if_pos hsparse]

/-- What the runtime accepts, the inspector describes the same way. -/
theorem accepted_described {p : Probe} (hread : readHparams p = .ok hp)
    (haccept : accept p = .ok ()) :
    GgufCap.splade ∈ (classify p).capabilities ∧ (classify p).sparseFormula = .splade ∧
      (classify p).missingHparams = [] ∧ (classify p).diagnostic = [] ∧
      capabilitySummary (some (classify p)) = "sparse" ∧
      (classify p).vocabSize = some hp.nVocab ∧ (classify p).embeddingLength = some hp.nEmbd ∧
      (classify p).blockCount = some hp.nLayer ∧ (classify p).contextLength = some hp.nPos := by
  obtain ⟨hvalid, haccepted⟩ := accept_ok.mp haccept
  cases p with
  | none => cases hvalid
  | some header =>
    have hparams := readHparams_ok.mp hread
    have hdims := classify_readsDims hparams.arch hparams.archNe
    exact ⟨haccepted.splade, haccepted.formula, haccepted.missing, haccepted.diagnostic,
      haccepted.summary, hdims.vocabSize.trans hparams.nVocab,
      hdims.embeddingLength.trans hparams.nEmbd, hdims.blockCount.trans hparams.nLayer,
      hdims.contextLength.trans hparams.nPos⟩

theorem accepted_described_sample :
    capabilitySummary (some (classify (some (sampleHeader [] 4)))) = "sparse" :=
  (accepted_described sample_hparams (by decide +kernel)).2.2.2.2.1

-- ---------------------------------------------------------------------------
-- From the inspector to the runtime
-- ---------------------------------------------------------------------------

/-- What the inspector calls a usable SPLADE file. -/
structure Usable (d : GgufDesc) : Prop where
  splade : GgufCap.splade ∈ d.capabilities
  formula : d.sparseFormula = .splade
  notLinear : GgufCap.sparseLinear ∉ d.capabilities
  missing : d.missingHparams = []
  diagnostic : d.diagnostic = []

instance (d : GgufDesc) : Decidable (Usable d) :=
  decidable_of_iff (GgufCap.splade ∈ d.capabilities ∧ d.sparseFormula = .splade ∧
      GgufCap.sparseLinear ∉ d.capabilities ∧ d.missingHparams = [] ∧ d.diagnostic = [])
    ⟨fun ⟨hsplade, hformula, hlinear, hmissing, hdiagnostic⟩ =>
      ⟨hsplade, hformula, hlinear, hmissing, hdiagnostic⟩,
    fun h => ⟨h.splade, h.formula, h.notLinear, h.missing, h.diagnostic⟩⟩

def transformNames : List String :=
  ["mlm_transform.weight", "mlm_transform.bias", "mlm_ln.weight", "mlm_ln.bias"]

/-- The tensors of the encoder and of the MLM transform. -/
def encoderNames (nLayer : Nat) : List Bytes :=
  embeddingNames.map ascii ++ (List.range nLayer).flatMap layerNames ++ transformNames.map ascii

/-- The tensor is there, with single-precision data. -/
def GgufHeader.readable (header : GgufHeader) (name : Bytes) : Bool :=
  (header.tensor name).any fun t => decide (t.type = .f32) && t.hasData

/-- A dimension that is there and positive. -/
def HasDim (p : Probe) (arch : Bytes) (fields : List String) : Prop :=
  ∃ n, readI32Any p arch fields = some n ∧ 0 < n

/-- What the runtime needs of a file beyond a usable description: the vocabulary bias, the
hyper-parameters no list reports, and the vocabulary itself. -/
structure RuntimeNeeds (header : GgufHeader) (arch : Bytes) : Prop where
  bias : ∃ t, header.tensor (ascii "mlm_bias") = some t ∧ t.hasData
  embeddingLength : HasDim (some header) arch embeddingLengthFields
  blockCount : HasDim (some header) arch blockCountFields
  headCount : HasDim (some header) arch headCountFields
  feedForward : HasDim (some header) arch feedForwardFields
  contextLength : HasDim (some header) arch contextLengthFields
  divides : ∀ nEmbd nHead, readI32Any (some header) arch embeddingLengthFields = some nEmbd →
    readI32Any (some header) arch headCountFields = some nHead → nEmbd.tmod nHead = 0
  eps : ∃ eps, readEps (some header) arch = some eps ∧ eps.nonpositive = false
  tokens : ∃ tokens, Probe.getArrStr (some header) (ascii "tokenizer.ggml.tokens") = some tokens ∧
    readI32Any (some header) arch ["vocab_size"] = some (tokens.length : Int)
  known : knownTokenizer (some header)
  typeRows : ∀ t, header.tensor (ascii "token_type_embd.weight") = some t → 1 ≤ toInt32 t.ne1

theorem requiredNames_eq (nLayer : Nat) :
    requiredNames nLayer = encoderNames nLayer ++ [ascii "mlm_bias"] := by
  simp [requiredNames, encoderNames, headNames, transformNames]

theorem GgufHeader.readable_iff {header : GgufHeader} : header.readable name ↔
    ∃ t, header.tensor name = some t ∧ t.type = .f32 ∧ t.hasData := by
  simp [readable, Option.any_eq_true]

theorem refuseWithoutVocab_vocabSize (h : GgufCap.splade ∈ (refuseWithoutVocab d).capabilities) :
    (refuseWithoutVocab d).vocabSize.isSome := by
  unfold refuseWithoutVocab at h ⊢
  split
  · rename_i hrefused
    simp [if_pos hrefused] at h
  · rename_i hkept
    rw [if_neg hkept] at h
    rw [Option.isSome_iff_ne_none]
    exact fun hnone => hkept ⟨.inl h, hnone⟩

/-- A usable description has a vocabulary size: a sparse claim without one is taken back. -/
theorem Usable.accepted {p : Probe} (h : Usable (classify p)) : Accepted (classify p) := by
  have hvocab : (classify p).vocabSize.isSome := by
    obtain ⟨hsplade, -, -, -, hdiagnostic⟩ := h
    unfold classify at hsplade hdiagnostic ⊢
    split
    · cases hdiagnostic
    · dsimp only at hsplade hdiagnostic
      split
      · rename_i t hmissing
        simp only [hmissing] at hdiagnostic
        cases hdiagnostic
      · rename_i hnone
        simp only [hnone] at hsplade
        exact refuseWithoutVocab_vocabSize hsplade
  exact ⟨h.diagnostic, h.splade, h.formula, hvocab, h.missing, h.notLinear⟩

section Loading

variable {header : GgufHeader}

theorem RuntimeNeeds.opened {path : Bytes} (h : RuntimeNeeds header arch)
    (hpath : path ≠ []) (haccepted : Accepted (classify (some header)))
    (harch : Probe.getStr (some header) (ascii "general.architecture") = some arch)
    (hne : arch ≠ [])
    (hpresent : ∀ name ∈ encoderNames ((classify (some header)).blockCount.getD 0).toNat,
      header.readable name) :
    ∃ o tokens, Opened (some path) (some header) .ample o tokens := by
  obtain ⟨nEmbd, hembd, hembdPos⟩ := h.embeddingLength
  obtain ⟨nLayer, hlayer, hlayerPos⟩ := h.blockCount
  obtain ⟨nHead, hhead, hheadPos⟩ := h.headCount
  obtain ⟨nFf, hff, hffPos⟩ := h.feedForward
  obtain ⟨nPos, hpos, hposPos⟩ := h.contextLength
  obtain ⟨eps, heps, hepsPos⟩ := h.eps
  obtain ⟨tokens, htokens, hvocab⟩ := h.tokens
  have hvocabPos : (0 : Int) < tokens.length :=
    Int.natCast_pos.mpr (List.length_pos_of_ne_nil (Probe.getArrStr_ne_nil htokens))
  let hp : SpladeHparams := ⟨nEmbd, nHead, nLayer, nFf, tokens.length, nPos, eps, arch⟩
  have hread : HparamsRead (some header) hp :=
    ⟨harch, hne, hembd, hlayer, hhead, hff, hpos, hvocab, heps,
      ⟨hembdPos, hheadPos, hlayerPos, hffPos, hvocabPos, hposPos⟩,
      h.divides nEmbd nHead hembd hhead, hepsPos⟩
  let o : OpenWeights := ⟨header, hp, readSpecialIds (some header) tokens.length⟩
  rw [(classify_readsDims harch hne).blockCount, hlayer, Option.getD_some] at hpresent
  have hholds : o.Holds .ample := by
    intro name hname
    rw [requiredNames_eq] at hname
    rcases List.mem_append.mp hname with hname | hname
    · obtain ⟨t, ht, -, hdata⟩ := GgufHeader.readable_iff.mp (hpresent name hname)
      exact ⟨t, ht, hdata, rfl⟩
    · obtain ⟨t, ht, hdata⟩ := h.bias
      rw [List.mem_singleton.mp hname]
      exact ⟨t, ht, hdata, rfl⟩
  have htype : ascii "token_type_embd.weight" ∈ encoderNames nLayer.toNat := by
    simp [encoderNames, embeddingNames]
  obtain ⟨t, ht, htF32, -⟩ := GgufHeader.readable_iff.mp (hpresent _ htype)
  have hstored : o.weights.head.typeEmbd = t := by
    rw [o.weights_typeEmbd, GgufHeader.stored, ht, Option.getD_some]
  exact ⟨o, tokens, {
    path := hpath
    file := rfl
    hparams := hread
    specialIds := rfl
    accepted := haccepted
    holds := hholds
    backend := rfl
    context := rfl
    buffer := rfl
    typeF32 := by rw [hstored, htF32]
    typeRows := by rw [o.weights_nType, hstored]; exact h.typeRows t ht
    listed := htokens
    known := h.known
    size := rfl }⟩

theorem Opened.runtimeNeeds {path : Option Bytes} (h : Opened path (some header) env o tokens) :
    RuntimeNeeds header o.hparams.arch := by
  obtain rfl := Option.some.inj h.file
  obtain ⟨hembdPos, hheadPos, hlayerPos, hffPos, -, hposPos⟩ := h.hparams.positive
  have hbias : ascii "mlm_bias" ∈ requiredNames o.hparams.nLayer.toNat := by
    simp [requiredNames, headNames]
  obtain ⟨t, ht, hdata, -⟩ := h.holds _ hbias
  exact {
    bias := ⟨t, ht, hdata⟩
    embeddingLength := ⟨_, h.hparams.nEmbd, hembdPos⟩
    blockCount := ⟨_, h.hparams.nLayer, hlayerPos⟩
    headCount := ⟨_, h.hparams.nHead, hheadPos⟩
    feedForward := ⟨_, h.hparams.nFf, hffPos⟩
    contextLength := ⟨_, h.hparams.nPos, hposPos⟩
    divides := by
      intro nEmbd nHead hembd hhead
      obtain rfl := Option.some.inj (hembd.symm.trans h.hparams.nEmbd)
      obtain rfl := Option.some.inj (hhead.symm.trans h.hparams.nHead)
      exact h.hparams.divides
    eps := ⟨_, h.hparams.eps, h.hparams.epsPositive⟩
    tokens := ⟨tokens, h.listed, h.hparams.nVocab.trans (congrArg some h.size.symm)⟩
    known := h.known
    typeRows := by
      intro t ht
      have hrows := h.typeRows
      rwa [o.weights_nType, o.weights_typeEmbd, GgufHeader.stored, ht, Option.getD_some] at hrows }

/-- A file the inspector calls usable, with its encoder and its transform, loads exactly
when it also has what the inspector does not ask for. -/
theorem usable_loads_iff (s : SparseSession) (path : Bytes) (header : GgufHeader)
    (maxLength : Int) (hpath : path ≠ []) (husable : Usable (classify (some header)))
    (hpresent : ∀ name ∈ encoderNames ((classify (some header)).blockCount.getD 0).toNat,
      header.readable name) :
    (s.loadFromFile (some path) (some header) .ample maxLength).1 = .ok () ↔
      RuntimeNeeds header
        ((Probe.getStr (some header) (ascii "general.architecture")).getD []) := by
  have haccepted := husable.accepted
  obtain ⟨arch, harch, hne⟩ := classify_arch haccepted.vocabSize
  rw [s.loadFromFile_ok, harch, Option.getD_some]
  constructor
  · rintro ⟨o, tokens, hopened⟩
    have hneeds := hopened.runtimeNeeds
    obtain rfl := Option.some.inj hopened.file
    rwa [Option.some.inj (hopened.hparams.arch.symm.trans harch)] at hneeds
  · intro hneeds
    exact hneeds.opened hpath haccepted harch hne hpresent

end Loading

theorem usable_loads_iff_sample :
    RuntimeNeeds (sampleHeader [] 4)
      ((Probe.getStr (some (sampleHeader [] 4)) (ascii "general.architecture")).getD []) :=
  (usable_loads_iff .new (ascii "a.gguf") (sampleHeader [] 4) 0 (by decide)
    (by decide +kernel) (by decide +kernel)).mp sample_loads

/-- A usable file without its bias. -/
theorem usable_refused :
    Usable (classify (some (sampleHeader ["mlm_bias"] 4))) ∧
      (∀ name ∈ encoderNames ((classify (some (sampleHeader ["mlm_bias"] 4))).blockCount.getD
        0).toNat, (sampleHeader ["mlm_bias"] 4).readable name) ∧
      (SparseSession.new.loadFromFile (some (ascii "a.gguf"))
        (some (sampleHeader ["mlm_bias"] 4)) .ample 0).1 =
          .error (ascii "missing tensor 'mlm_bias'") :=
  ⟨by decide +kernel, by decide +kernel, by decide +kernel⟩

end LibEmbedding
