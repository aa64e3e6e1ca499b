import LibEmbedding.RerankerTuningConstraints

/-!
# The names of a reranker

A registry entry is found by its code or by its name, and what is tuned for it is kept under its
code. Where two entries share a code the second one's tuning is measured on the first.
-/

namespace LibEmbedding

theorem plain_bgeBase : Plain (ascii "BAAI/bge-reranker-base") := by decide

theorem plain_bgeM3 : Plain (ascii "rozgo/bge-reranker-v2-m3") := by decide

theorem plain_jinaTurbo : Plain (ascii "jinaai/jina-reranker-v1-turbo-en") := by decide

theorem plain_jinaMultilingual : Plain (ascii "jinaai/jina-reranker-v2-base-multilingual") := by decide

/-- `lembed__reranker_models` -/
def rerankerModels : List TextModelInfo := [
  { modelName := ascii "BAAI/bge-reranker-base"
    modelCode := ascii "BAAI/bge-reranker-base"
    plainCode := plain_bgeBase
    modelFile := ascii "onnx/model.onnx"
    dim := 0, maxTokens := 512, pooling := 0, quantization := .none },
  { modelName := ascii "BAAI/bge-reranker-v2-m3"
    modelCode := ascii "rozgo/bge-reranker-v2-m3"
    plainCode := plain_bgeM3
    modelFile := ascii "model.onnx"
    dim := 0, maxTokens := 512, pooling := 0, quantization := .none },
  { modelName := ascii "jinaai/jina-reranker-v1-turbo-en"
    modelCode := ascii "jinaai/jina-reranker-v1-turbo-en"
    plainCode := plain_jinaTurbo
    modelFile := ascii "onnx/model.onnx"
    dim := 0, maxTokens := 8192, pooling := 0, quantization := .none },
  { modelName := ascii "jinaai/jina-reranker-v2-base-multilingual"
    modelCode := ascii "jinaai/jina-reranker-v2-base-multilingual"
    plainCode := plain_jinaMultilingual
    modelFile := ascii "onnx/model.onnx"
    dim := 0, maxTokens := 8192, pooling := 0, quantization := .none },
  { modelName := ascii "jinaai/jina-reranker-v1-turbo-en-quantized"
    modelCode := ascii "jinaai/jina-reranker-v1-turbo-en"
    plainCode := plain_jinaTurbo
    modelFile := ascii "onnx/model_quantized.onnx"
    dim := 0, maxTokens := 8192, pooling := 0, quantization := .static }]

namespace RerankerHost

variable (host : RerankerHost)

/-- What the canonical id of `model` is benchmarked, kept and cleared under is entry `e`. -/
def StableAt (model : Bytes) (e : Nat) : Prop :=
  host.resolveRerankerModel (host.canonicalRerankerId model) = some e ∧
    host.benchModel (host.canonicalRerankerId model) = some e

/-- No entry before `e` has the code of `e`, as its own code or as its name. -/
def CodeFirst (e : Nat) : Prop :=
  ∀ j < e, ∀ other info, host.registry[j]? = some other → host.registry[e]? = some info →
    other.modelCode ≠ info.modelCode ∧ other.modelName ≠ info.modelCode

variable {host} {model : Bytes} {e : Nat}

theorem resolve_entry (h : host.resolveRerankerModel model = some e) :
    ∃ info, host.registry[e]? = some info ∧
      (info.modelCode = model ∨ info.modelName = model) := by
  rcases Option.or_eq_some_iff.mp h with hcode | ⟨-, hname⟩
  · obtain ⟨he, hinfo, -⟩ := List.findIdx?_eq_some_iff_getElem.mp hcode
    exact ⟨_, List.getElem?_eq_getElem he, .inl (of_decide_eq_true hinfo)⟩
  · obtain ⟨he, hinfo, -⟩ := List.findIdx?_eq_some_iff_getElem.mp hname
    exact ⟨_, List.getElem?_eq_getElem he, .inr (of_decide_eq_true hinfo)⟩

theorem canonicalRerankerId_eq (h : host.resolveRerankerModel model = some e)
    (hinfo : host.registry[e]? = some info) :
    host.canonicalRerankerId model = info.modelCode := by
  rw [canonicalRerankerId, h, Option.bind_some, hinfo]
  rfl

/-- A scan that an entry passes stops at that entry where no earlier one passes. -/
theorem findIdx?_first {p : TextModelInfo → Bool} (hinfo : host.registry[e]? = some info)
    (hp : p info = true) : host.registry.findIdx? p = some e ↔
      ∀ j < e, ∀ other, host.registry[j]? = some other → p other = false := by
  obtain ⟨he, rfl⟩ := List.getElem?_eq_some_iff.mp hinfo
  rw [List.findIdx?_eq_some_iff_getElem]
  constructor
  · rintro ⟨_, _, hbefore⟩ j hj other hother
    obtain ⟨hlt, rfl⟩ := List.getElem?_eq_some_iff.mp hother
    exact Bool.eq_false_iff.mpr (hbefore j hj)
  · intro h
    refine ⟨he, hp, fun j hj => ?_⟩
    rw [h j hj _ (List.getElem?_eq_getElem (Nat.lt_trans hj he))]
    exact Bool.false_ne_true

/-- Under its code an entry is resolved as long as no earlier one has the code. -/
theorem resolve_code_iff (hinfo : host.registry[e]? = some info) :
    host.resolveRerankerModel info.modelCode = some e ↔
      ∀ j < e, ∀ other, host.registry[j]? = some other → other.modelCode ≠ info.modelCode := by
  have hfound : (host.registry.findIdx? fun other => other.modelCode = info.modelCode).isSome := by
    rw [List.findIdx?_isSome, List.any_eq_true]
    exact ⟨info, List.mem_of_getElem? hinfo, decide_eq_true rfl⟩
  rw [resolveRerankerModel, Option.or_of_isSome hfound, findIdx?_first hinfo (decide_eq_true rfl)]
  simp

theorem benchModel_code_iff (hinfo : host.registry[e]? = some info) :
    host.benchModel info.modelCode = some e ↔
      ∀ j < e, ∀ other, host.registry[j]? = some other →
        other.modelCode ≠ info.modelCode ∧ other.modelName ≠ info.modelCode := by
  rw [benchModel, findIdx?_first hinfo (by simp)]
  simp [and_comm]

theorem stableAt_iff (h : host.resolveRerankerModel model = some e) :
    host.StableAt model e ↔ host.CodeFirst e := by
  obtain ⟨info, hinfo, -⟩ := resolve_entry h
  rw [StableAt, canonicalRerankerId_eq h hinfo, resolve_code_iff hinfo, benchModel_code_iff hinfo]
  constructor
  · rintro ⟨-, hbench⟩ j hj other info' hother hinfo'
    cases hinfo.symm.trans hinfo'
    exact hbench j hj other hother
  · intro hfirst
    exact ⟨fun j hj other hother => (hfirst j hj other info hother hinfo).1,
      fun j hj other hother => hfirst j hj other info hother hinfo⟩

/-- A machine with the registry of the library. -/
def shipped : RerankerHost := { steady with registry := rerankerModels }

theorem stableAt_shipped :
    shipped.StableAt (ascii "BAAI/bge-reranker-v2-m3") 1 :=
  (stableAt_iff (by decide)).mpr <| by
    intro j hj other info hother hinfo
    obtain rfl : j = 0 := Nat.lt_one_iff.mp hj
    cases hother
    cases hinfo
    decide

/-- The quantized reranker is tuned as the one it shares its code with. -/
theorem canonical_not_stable :
    ¬ ∀ model e, shipped.resolveRerankerModel model = some e →
      shipped.resolveRerankerModel (shipped.canonicalRerankerId model) = some e := by
  intro h
  have hnamed := h (ascii "jinaai/jina-reranker-v1-turbo-en-quantized") 4 (by decide)
  exact absurd hnamed (by decide)

end RerankerHost

end LibEmbedding
