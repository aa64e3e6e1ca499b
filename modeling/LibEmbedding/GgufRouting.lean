import LibEmbedding.Cjson

/-!
# Routing on the name of a file

The text, sparse and reranker creators that get a path, and `resolve_effective_backend`, each
look for `.gguf` at the end of the name with a test of their own.
-/

namespace LibEmbedding

open Foundation

/-- Where a creator that gets a path goes on. -/
inductive PathRoute where
  | invalidArgument
  | ggufFile
  | directory
  deriving DecidableEq, Repr

/-- `lembed_backend_t` -/
inductive BackendRequest where
  | onnx
  | llamacpp
  | auto
  deriving DecidableEq, Repr

-- ---------------------------------------------------------------------------
-- The tests
-- ---------------------------------------------------------------------------

/-- The last `n` bytes of a string that has as many. -/
def lastBytes (n : Nat) (s : Bytes) : Bytes := s.drop (s.length - n)

/-- `is_gguf` of `lembed_text_embedding_create_from_path` -/
def textIsGguf (path : Bytes) : Bool :=
  decide (5 < path.length) && decide (lastBytes 5 path = ascii ".gguf")

/-- `ends_with_gguf`: five comparisons that accept either case. -/
def endsWithGguf (path : Bytes) : Bool :=
  if path.length < 5 then false
  else match lastBytes 5 path with
    | [s0, s1, s2, s3, s4] => decide (s0 = 46) && decide (s1 = 103 ∨ s1 = 71) &&
        decide (s2 = 103 ∨ s2 = 71) && decide (s3 = 117 ∨ s3 = 85) && decide (s4 = 102 ∨ s4 = 70)
    | _ => false

/-- `lembed__path_ends_with_gguf` compares the last four bytes. -/
def pathEndsWithGguf (path : Bytes) : Bool :=
  let p := path.map toLower
  decide (4 < p.length) && decide (lastBytes 4 p = ascii ".gguf")

/-- `resolve_effective_backend` -/
def resolveEffectiveBackend (requested : BackendRequest) (modelNameOrPath : Option Bytes) :
    BackendType :=
  match requested, modelNameOrPath with
  | .onnx, _ => .onnx
  | .llamacpp, _ => .llamacpp
  | .auto, none => .onnx
  | .auto, some name =>
    let p := name.map toLower
    if 4 < p.length ∧ lastBytes 4 p = ascii ".gguf" then .llamacpp
    else if 5 < p.length ∧ lastBytes 5 p = ascii ".onnx" then .onnx
    else .onnx

-- ---------------------------------------------------------------------------
-- The creators
-- ---------------------------------------------------------------------------

/-- A creator that gets a path, up to its routing. -/
def createFromPath (isGguf : Bytes → Bool) (path : Option Bytes) (options out : Bool) :
    PathRoute :=
  match path with
  | none => .invalidArgument
  | some path =>
    if path = [] ∨ options = false ∨ out = false then .invalidArgument
    else if isGguf path then .ggufFile
    else .directory

/-- `lembed_text_embedding_create_from_path` -/
def textCreateFromPath : Option Bytes → Bool → Bool → PathRoute := createFromPath textIsGguf

/-- `lembed_sparse_text_embedding_create_from_path` -/
def sparseCreateFromPath : Option Bytes → Bool → Bool → PathRoute := createFromPath endsWithGguf

/-- `lembed_reranker_create_from_path` -/
def rerankerCreateFromPath : Option Bytes → Bool → Bool → PathRoute :=
  createFromPath pathEndsWithGguf

-- ---------------------------------------------------------------------------
-- What the name says
-- ---------------------------------------------------------------------------

/-- The string ends in `.gguf`, in any letter case. -/
def NamesGguf (path : Bytes) : Prop :=
  ∃ stem suffix, path = stem ++ suffix ∧ suffix.map toLower = ascii ".gguf"

/-- All four take the string for what it names. -/
structure RoutesAgree (path : Bytes) : Prop where
  text : textCreateFromPath (some path) true true = .ggufFile ↔ NamesGguf path
  sparse : sparseCreateFromPath (some path) true true = .ggufFile ↔ NamesGguf path
  reranker : rerankerCreateFromPath (some path) true true = .ggufFile ↔ NamesGguf path
  backend : resolveEffectiveBackend .auto (some path) = .llamacpp ↔ NamesGguf path

variable {path : Bytes}

theorem namesGguf_iff :
    NamesGguf path ↔ 5 ≤ path.length ∧ (lastBytes 5 path).map toLower = ascii ".gguf" := by
  constructor
  · rintro ⟨stem, suffix, rfl, hsuffix⟩
    have hlength : suffix.length = 5 := by
      rw [← List.length_map toLower, hsuffix]
      rfl
    have hlast : lastBytes 5 (stem ++ suffix) = suffix := by
      rw [lastBytes, List.length_append, hlength, Nat.add_sub_cancel, List.drop_left]
    rw [hlast, List.length_append, hlength]
    exact ⟨Nat.le_add_left 5 _, hsuffix⟩
  · rintro ⟨-, hlast⟩
    exact ⟨path.take (path.length - 5), lastBytes 5 path, (List.take_append_drop _ _).symm, hlast⟩

theorem createFromPath_iff {isGguf : Bytes → Bool} :
    createFromPath isGguf (some path) true true = .ggufFile ↔ path ≠ [] ∧ isGguf path = true := by
  unfold createFromPath
  by_cases hempty : path = []
  · simp [hempty]
  · cases hgguf : isGguf path with
    | true => simp [hempty, hgguf]
    | false => simp [hempty, hgguf]

/-- A letter of the suffix is spelled as itself or as its capital. -/
theorem toLower_suffix : ∀ c : UInt8, (toLower c = 46 ↔ c = 46) ∧
    (toLower c = 103 ↔ c = 103 ∨ c = 71) ∧ (toLower c = 117 ↔ c = 117 ∨ c = 85) ∧
      (toLower c = 102 ↔ c = 102 ∨ c = 70) :=
  forall_byte (by decide +kernel)

/-- The five comparisons are those of the lower-case bytes with the suffix. -/
theorem endsWithGguf_iff : endsWithGguf path = true ↔ NamesGguf path := by
  rw [namesGguf_iff, endsWithGguf]
  by_cases hshort : path.length < 5
  · rw [if_pos hshort]
    exact iff_of_false Bool.false_ne_true fun h => absurd h.1 (not_le.mpr hshort)
  · rw [if_neg hshort]
    have hlength : (lastBytes 5 path).length = 5 := by
      rw [lastBytes, List.length_drop]
      omega
    rw [and_iff_right (not_lt.mp hshort)]
    generalize lastBytes 5 path = last at hlength
    match last, hlength with
    | [s0, s1, s2, s3, s4], _ =>
      have hsuffix : ascii ".gguf" = [46, 103, 103, 117, 102] := rfl
      simp only [Bool.and_eq_true, decide_eq_true_eq, hsuffix, List.map_cons, List.map_nil,
        List.cons.injEq, and_true, toLower_suffix, and_assoc]

/-- Four bytes are never the five of the suffix. -/
theorem lastBytes_four (s : Bytes) : lastBytes 4 s ≠ ascii ".gguf" := by
  intro h
  have hlength := congrArg List.length h
  rw [lastBytes, List.length_drop] at hlength
  have hfive : (ascii ".gguf").length = 5 := rfl
  omega

theorem not_pathEndsWithGguf (path : Bytes) : pathEndsWithGguf path = false := by
  rw [pathEndsWithGguf, decide_eq_false (lastBytes_four _), Bool.and_false]

theorem resolveEffectiveBackend_auto (path : Bytes) :
    resolveEffectiveBackend .auto (some path) = .onnx := by
  rw [resolveEffectiveBackend, if_neg fun h => lastBytes_four _ h.2, ite_self]

theorem NamesGguf.of_textIsGguf (h : textIsGguf path = true) : NamesGguf path := by
  rw [textIsGguf, Bool.and_eq_true, decide_eq_true_eq, decide_eq_true_eq] at h
  rw [namesGguf_iff, h.2]
  exact ⟨h.1.le, by decide⟩

/-- The entry points agree on a string exactly when it names no GGUF file. -/
theorem routesAgree_iff (path : Bytes) : RoutesAgree path ↔ ¬NamesGguf path := by
  constructor
  · rintro h hnames
    have hroute := h.backend.mpr hnames
    rw [resolveEffectiveBackend_auto] at hroute
    cases hroute
  · intro hnames
    refine ⟨iff_of_false ?_ hnames, iff_of_false ?_ hnames, iff_of_false ?_ hnames,
      iff_of_false ?_ hnames⟩
    · intro htext
      exact hnames (.of_textIsGguf (createFromPath_iff.mp htext).2)
    · intro hsparse
      exact hnames (endsWithGguf_iff.mp (createFromPath_iff.mp hsparse).2)
    · intro hreranker
      cases (not_pathEndsWithGguf path).symm.trans (createFromPath_iff.mp hreranker).2
    · rw [resolveEffectiveBackend_auto]
      nofun

/-- The sparse creator alone takes a model file for one. -/
theorem model_file_not_routesAgree : ¬RoutesAgree (ascii "model.gguf") := by
  intro h
  have hsparse : sparseCreateFromPath (some (ascii "model.gguf")) true true = .ggufFile := by
    decide +kernel
  have hreranker := h.reranker.mpr (h.sparse.mp hsparse)
  revert hreranker
  decide +kernel

end LibEmbedding
