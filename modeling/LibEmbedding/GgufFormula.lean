import LibEmbedding.GgufDescribe

/-!
# The formula of a file with both heads

`resolve_formula` compares the number of elements of `sparse_linear.weight` with one and
with the vocabulary, under the name of its output dimension. For a head of shape
`[hidden, out]` that number is `hidden * out`.
-/

namespace LibEmbedding

open Foundation

variable {header : GgufHeader} {hidden out : Nat} {vocab : Int}

/-- A file with an MLM head, and a linear head of the given shape. -/
structure BothHeads (header : GgufHeader) (hidden out : Nat) (vocab : Int) : Prop where
  vocabSize : (Probe.getArchI32 (some header)
    ((Probe.getStr (some header) (ascii "general.architecture")).getD []) "vocab_size") =
      some vocab
  transform : Probe.hasTensor (some header) (ascii "mlm_transform.weight")
  linear : ∃ t, header.tensor (ascii "sparse_linear.weight") = some t ∧
    t.ne0 = hidden ∧ t.ne1 = out ∧ t.ne2 = 1 ∧ t.ne3 = 1

/-- The formula is the one the output dimension calls for. -/
structure DecidedByShape (formula : SparseFormula) (out : Nat) (vocab : Int) : Prop where
  scalar : formula = .scalar ↔ out = 1
  splade : formula = .splade ↔ (out : Int) = vocab
  unknown : formula = .unknown ↔ out ≠ 1 ∧ (out : Int) ≠ vocab

/-- The comparison of `resolve_formula`, for a tensor of `numel` elements. -/
def formulaOf (numel : Nat) (vocab : Int) : SparseFormula :=
  if numel = 0 then .unknown
  else if numel = 1 then .scalar
  else if (numel : Int) = vocab then .splade
  else .unknown

-- ---------------------------------------------------------------------------
-- The number of elements
-- ---------------------------------------------------------------------------

namespace BothHeads

theorem tensorNumel (h : BothHeads header hidden out vocab) :
    Probe.tensorNumel (some header) (ascii "sparse_linear.weight") =
      if hidden * out = 0 then none else some (hidden * out) := by
  obtain ⟨t, ht, rfl, rfl, h2, h3⟩ := h.linear
  have hfound : Probe.tensor (some header) (ascii "sparse_linear.weight") = some t := ht
  simp [Probe.tensorNumel, hfound, h2, h3]

theorem hasLinear (h : BothHeads header hidden out vocab) :
    Probe.hasTensor (some header) (ascii "sparse_linear.weight") := by
  obtain ⟨t, ht, -⟩ := h.linear
  exact Option.isSome_of_eq_some ht

theorem describe_vocabSize (h : BothHeads header hidden out vocab) :
    (describe (some header) header.nTensors).vocabSize = some vocab := by
  rw [(describe_sameDims (some header) header.nTensors).vocabSize, readArchFields]
  have harch : (Probe.getStr (some header) (ascii "general.architecture")).getD [] ≠ [] := by
    intro hempty
    have hvocab := h.vocabSize
    rw [hempty, Probe.getArchI32, if_pos rfl] at hvocab
    cases hvocab
  rw [if_neg harch]
  exact h.vocabSize

end BothHeads

-- ---------------------------------------------------------------------------
-- The capabilities
-- ---------------------------------------------------------------------------

theorem addCapability_mono (p : Probe) (caps : Capabilities) (rule : CapabilityRule) :
    caps ⊆ addCapability p caps rule := by
  intro cap hcap
  unfold addCapability
  split
  · dsimp only
    split
    · split <;> simp [hcap]
    · simp [hcap]
  · exact hcap

theorem mem_addCapability {p : Probe} (caps : Capabilities)
    (htensor : p.hasTensor (ascii rule.tensor)) : rule.cap ∈ addCapability p caps rule := by
  unfold addCapability
  rw [if_pos htensor]
  dsimp only
  split
  · split <;> simp
  · simp

theorem foldl_addCapability_mono (p : Probe) (rules : List CapabilityRule) (caps : Capabilities) :
    caps ⊆ rules.foldl (addCapability p) caps := by
  induction rules generalizing caps with
  | nil => exact Finset.Subset.refl caps
  | cons rule rules ih => exact (addCapability_mono p caps rule).trans (ih _)

/-- A rule whose tensor is in the file establishes its capability. -/
theorem mem_foldl_addCapability {p : Probe} (rules : List CapabilityRule) (caps : Capabilities)
    (hrule : rule ∈ rules) (htensor : p.hasTensor (ascii rule.tensor)) :
    rule.cap ∈ rules.foldl (addCapability p) caps := by
  induction rules generalizing caps with
  | nil => cases hrule
  | cons first rules ih =>
    rcases List.mem_cons.mp hrule with rfl | hrule
    · exact foldl_addCapability_mono p rules _ (mem_addCapability caps htensor)
    · exact ih _ hrule

theorem mem_headCapabilities {p : Probe} (hrule : rule ∈ capabilityRules)
    (htensor : p.hasTensor (ascii rule.tensor)) (caps : Capabilities) :
    rule.cap ∈ headCapabilities p caps := by
  have hmem := mem_foldl_addCapability capabilityRules (insert .dense caps) hrule htensor
  unfold headCapabilities
  dsimp only
  split
  · exact Finset.mem_insert_of_mem hmem
  · exact hmem

theorem subset_readSpecialTokens (p : Probe) (d : GgufDesc) :
    d.capabilities ⊆ (readSpecialTokens p d).capabilities := by
  unfold readSpecialTokens
  dsimp only
  split
  · exact Finset.subset_insert _ _
  · exact Finset.Subset.refl _

-- ---------------------------------------------------------------------------
-- The formula
-- ---------------------------------------------------------------------------

theorem resolveFormula_both {p : Probe} {d : GgufDesc} (hsplade : .splade ∈ d.capabilities)
    (hlinear : .sparseLinear ∈ d.capabilities) (hvocab : d.vocabSize = some vocab)
    (hnumel : p.tensorNumel (ascii "sparse_linear.weight") = if n = 0 then none else some n) :
    (resolveFormula p d).1 = formulaOf n vocab := by
  rw [resolveFormula, if_pos ⟨hsplade, hlinear⟩, hnumel, hvocab, formulaOf]
  by_cases hzero : n = 0
  · simp only [if_pos hzero]
  · simp only [if_neg hzero]
    split
    · rfl
    · split <;> rfl

theorem refuseWithoutVocab_of_isSome {d : GgufDesc} (h : d.vocabSize.isSome) :
    refuseWithoutVocab d = d := by
  rw [refuseWithoutVocab, if_neg]
  rintro ⟨-, hnone⟩
  rw [hnone] at h
  cases h

theorem BothHeads.classifyHeads_formula (h : BothHeads header hidden out vocab) :
    (classifyHeads (some header) (describe (some header) header.nTensors)).sparseFormula =
      formulaOf (hidden * out) vocab := by
  have hcaps (rule : CapabilityRule) (hrule : rule ∈ capabilityRules)
      (htensor : Probe.hasTensor (some header) (ascii rule.tensor)) (d : GgufDesc) :
      rule.cap ∈ (readSpecialTokens (some header)
        { d with capabilities := headCapabilities (some header) d.capabilities }).capabilities :=
    subset_readSpecialTokens _ _ (mem_headCapabilities hrule htensor _)
  have hsplade := hcaps ⟨"mlm_transform.weight", some "mlm_bias", .splade⟩
    (by simp [capabilityRules]) h.transform
  have hlinear := hcaps ⟨"sparse_linear.weight", none, .sparseLinear⟩
    (by simp [capabilityRules]) h.hasLinear
  have hvocab : (readSpecialTokens (some header) { describe (some header) header.nTensors with
      capabilities := headCapabilities (some header)
        (describe (some header) header.nTensors).capabilities }).vocabSize = some vocab :=
    h.describe_vocabSize
  rw [classifyHeads]
  dsimp only
  rw [refuseWithoutVocab_of_isSome]
  · exact resolveFormula_both (hsplade _) (hlinear _) hvocab h.tensorNumel
  · dsimp only
    rw [(resolveFormula_sameDims _ _).vocabSize, hvocab]
    rfl

theorem noteMissing_sparseFormula (d : GgufDesc) (name : Bytes) :
    (d.noteMissing name).sparseFormula = d.sparseFormula := by
  unfold GgufDesc.noteMissing
  split
  · rfl
  · split <;> rfl

theorem describe_sparseFormula (p : Probe) (nTensors : Nat) :
    (describe p nTensors).sparseFormula = .unknown := by
  have hnoted (c : Prop) [Decidable c] (d : GgufDesc) (name : Bytes) :
      (if c then d.noteMissing name else d).sparseFormula = d.sparseFormula := by
    split
    · exact noteMissing_sparseFormula d name
    · rfl
  have hnames : (describeNames p nTensors).sparseFormula = .unknown := by
    unfold describeNames
    dsimp only
    split
    · rfl
    · exact noteMissing_sparseFormula _ _
  have hread (arch : Bytes) (d : GgufDesc) :
      (readArchFields p arch d).sparseFormula = d.sparseFormula := by
    unfold readArchFields
    split <;> rfl
  exact (hnoted _ _ _).trans ((hnoted _ _ _).trans ((hread _ _).trans hnames))

/-- Without the tensors of an encoder there is no formula; with them it is read off the
number of elements. -/
theorem BothHeads.classify_formula (h : BothHeads header hidden out vocab) :
    (classify (some header)).sparseFormula =
      if Probe.hasTensor (some header) (ascii "token_embd.weight") then
        formulaOf (hidden * out) vocab
      else .unknown := by
  simp only [classify, requiredEncoderTensors, List.find?_cons, List.find?_nil]
  by_cases hencoder : Probe.hasTensor (some header) (ascii "token_embd.weight")
  · simp only [hencoder, not_true_eq_false, decide_false, if_true]
    exact h.classifyHeads_formula
  · simp only [hencoder, Bool.false_eq_true, not_false_eq_true, decide_true, if_false]
    rw [noteMissing_sparseFormula, describe_sparseFormula]

-- ---------------------------------------------------------------------------
-- What the shape decides
-- ---------------------------------------------------------------------------

/-- Where the number of elements gives the formula of the output dimension: a head for one
or for the whole vocabulary has a hidden size of one, any other head does not have as many
elements as the vocabulary has tokens. -/
def ShapeTells (encoder : Bool) (hidden out : Nat) (vocab : Int) : Prop :=
  if out = 1 ∨ (out : Int) = vocab then
    encoder ∧ hidden = 1 ∧ 0 < out ∧ ¬(out = 1 ∧ vocab = 1)
  else ¬(encoder ∧ 0 < hidden * out ∧ ((hidden * out : Nat) : Int) = vocab)

instance (encoder : Bool) (hidden out : Nat) (vocab : Int) :
    Decidable (ShapeTells encoder hidden out vocab) :=
  inferInstanceAs (Decidable (ite _ _ _))

@[simp] theorem formulaOf_scalar : formulaOf n vocab = .scalar ↔ n = 1 := by
  unfold formulaOf
  split_ifs <;> simp_all

@[simp] theorem formulaOf_splade : formulaOf n vocab = .splade ↔ 2 ≤ n ∧ (n : Int) = vocab := by
  unfold formulaOf
  split_ifs <;> simp_all
  omega

@[simp] theorem formulaOf_unknown :
    formulaOf n vocab = .unknown ↔ n = 0 ∨ n ≠ 1 ∧ (n : Int) ≠ vocab := by
  unfold formulaOf
  split_ifs <;> simp_all

/-- A head for one score has one element exactly when its hidden size is one. -/
theorem decided_scalar_iff (hidden : Nat) (vocab : Int) :
    DecidedByShape (formulaOf (hidden * 1) vocab) 1 vocab ↔ hidden = 1 ∧ vocab ≠ 1 := by
  rw [mul_one]
  constructor
  · rintro ⟨hscalar, hsplade, -⟩
    have hone : hidden = 1 := formulaOf_scalar.mp (hscalar.mpr rfl)
    refine ⟨hone, fun hvocab => ?_⟩
    have htwo := (formulaOf_splade.mp (hsplade.mpr hvocab.symm)).1
    omega
  · rintro ⟨rfl, hvocab⟩
    constructor
    · simp
    · simp only [formulaOf_splade]
      omega
    · simp

theorem decided_splade_iff (hout : out ≠ 1) (hvocab : (out : Int) = vocab) :
    DecidedByShape (formulaOf (hidden * out) vocab) out vocab ↔ hidden = 1 ∧ 0 < out := by
  constructor
  · rintro ⟨-, hsplade, -⟩
    obtain ⟨htwo, heq⟩ := formulaOf_splade.mp (hsplade.mpr hvocab)
    have hout : hidden * out = 1 * out := by omega
    have hpos : 0 < out := Nat.pos_of_mul_pos_left (by omega : 0 < hidden * out)
    exact ⟨Nat.eq_of_mul_eq_mul_right hpos hout, hpos⟩
  · rintro ⟨rfl, hpos⟩
    rw [one_mul]
    constructor
    · simp
    · simp only [formulaOf_splade]
      omega
    · simp only [formulaOf_unknown]
      omega

theorem decided_unknown_iff (hout : out ≠ 1) (hvocab : (out : Int) ≠ vocab) :
    DecidedByShape (formulaOf (hidden * out) vocab) out vocab ↔
      ¬(0 < hidden * out ∧ ((hidden * out : Nat) : Int) = vocab) := by
  have hone : hidden * out ≠ 1 := fun h => hout (Nat.eq_one_of_mul_eq_one_left h)
  constructor
  · rintro ⟨-, -, hunknown⟩ ⟨hpos, heq⟩
    rcases formulaOf_unknown.mp (hunknown.mpr ⟨hout, hvocab⟩) with hzero | ⟨-, hne⟩
    · omega
    · exact hne heq
  · intro hne
    constructor
    · simp [hone, hout]
    · simp only [formulaOf_splade, hvocab, iff_false]
      rintro ⟨htwo, heq⟩
      exact hne ⟨by omega, heq⟩
    · simp only [formulaOf_unknown]
      constructor
      · intro _
        exact ⟨hout, hvocab⟩
      · intro _
        by_cases hzero : hidden * out = 0
        · exact .inl hzero
        · exact .inr ⟨hone, fun heq => hne ⟨by omega, heq⟩⟩

theorem formulaOf_decided_iff (hidden out : Nat) (vocab : Int) :
    DecidedByShape (formulaOf (hidden * out) vocab) out vocab ↔
      ShapeTells true hidden out vocab := by
  unfold ShapeTells
  by_cases hout : out = 1
  · subst hout
    rw [decided_scalar_iff, if_pos (.inl rfl)]
    simp
  · by_cases hvocab : (out : Int) = vocab
    · rw [decided_splade_iff hout hvocab, if_pos (.inr hvocab)]
      simp [hout]
    · rw [decided_unknown_iff hout hvocab, if_neg (by simp [hout, hvocab])]
      simp

/-- Without an encoder the answer is always unknown. -/
theorem unknown_decided_iff (hidden out : Nat) (vocab : Int) :
    DecidedByShape .unknown out vocab ↔ ShapeTells false hidden out vocab := by
  unfold ShapeTells
  constructor
  · rintro ⟨-, -, hunknown⟩
    obtain ⟨hout, hvocab⟩ := hunknown.mp rfl
    rw [if_neg (by simp [hout, hvocab])]
    simp
  · intro h
    split at h
    · simp at h
    · rename_i hneither
      rw [not_or] at hneither
      obtain ⟨hout, hvocab⟩ := hneither
      exact ⟨by simp [hout], by simp [hvocab], by simp [hout, hvocab]⟩

/-- The formula of a file with both heads is the one its output dimension calls for
exactly where the number of elements tells the two apart. -/
theorem classify_decided_iff (header : GgufHeader) (hidden out : Nat) (vocab : Int)
    (h : BothHeads header hidden out vocab) :
    DecidedByShape (classify (some header)).sparseFormula out vocab ↔
      ShapeTells (Probe.hasTensor (some header) (ascii "token_embd.weight")) hidden out vocab := by
  rw [h.classify_formula]
  by_cases hencoder : Probe.hasTensor (some header) (ascii "token_embd.weight")
  · rw [if_pos hencoder, hencoder]
    exact formulaOf_decided_iff hidden out vocab
  · rw [if_neg hencoder, Bool.not_eq_true _ |>.mp hencoder]
    exact unknown_decided_iff hidden out vocab

/-- A file with both heads, over a vocabulary of a hundred tokens. -/
def bothHeadsHeader (hidden out : Nat) : GgufHeader where
  key name :=
    if name = ascii "general.architecture" then some (.string (ascii "bert"))
    else if name = ascii "bert.vocab_size" then some (.uint32 100)
    else none
  tensor name :=
    if name = ascii "sparse_linear.weight" then
      some ⟨.f32, hidden, out, 1, 1, true, fun _ _ _ _ => 0⟩
    else if name = ascii "token_embd.weight" ∨ name = ascii "mlm_transform.weight" then
      some ⟨.f32, hidden, 100, 1, 1, true, fun _ _ _ _ => 0⟩
    else none
  nTensors := 3

theorem bothHeadsHeader_scalar : BothHeads (bothHeadsHeader 2 1) 2 1 100 :=
  ⟨by decide +kernel, by decide +kernel, _, rfl, rfl, rfl, rfl, rfl⟩

theorem classify_decided_iff_scalar :
    DecidedByShape (classify (some (bothHeadsHeader 1 1))).sparseFormula 1 100 :=
  (classify_decided_iff (bothHeadsHeader 1 1) 1 1 100
    ⟨by decide +kernel, by decide +kernel, _, rfl, rfl, rfl, rfl, rfl⟩).mpr (by decide +kernel)

/-- A linear head with one output over two hidden units has two elements. -/
theorem classify_undecided : ¬∀ header hidden out vocab, BothHeads header hidden out vocab →
    DecidedByShape (classify (some header)).sparseFormula out vocab := by
  intro h
  have hdecided := (h _ 2 1 100 bothHeadsHeader_scalar).scalar.mpr rfl
  have hformula : (classify (some (bothHeadsHeader 2 1))).sparseFormula = .unknown := by
    decide +kernel
  rw [hformula] at hdecided
  cases hdecided

end LibEmbedding
