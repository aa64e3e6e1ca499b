import LibEmbedding.Foundation.Framing
import LibEmbedding.RerankerCreate

/-!
# The names of a GGUF file

`lembed_resolve_gguf_path` takes a path, a URL, a name of the registry or a shorthand, and
`resolve_gguf_model` a name of the registry. A URL is taken apart around `/resolve/main/`, the
shorthand at its first slash.
-/

namespace LibEmbedding

open Foundation

/-- `lembed_gguf_model_info_t`, the part that is looked up. -/
structure GgufEntry where
  name : Bytes
  ggufUrl : Bytes
  modelCode : Bytes
  deriving DecidableEq

/-- An entry whose URL is given by the parts it has. -/
def ggufEntry (name organisation repository file modelCode : String) : GgufEntry where
  name := ascii name
  ggufUrl := ascii "https://huggingface.co/" ++ ascii organisation ++ ascii "/" ++
    ascii repository ++ ascii "/resolve/main/" ++ ascii file
  modelCode := ascii modelCode

/-- `lembed__gguf_models` -/
def ggufModels : List GgufEntry := [
  ggufEntry "Snowflake-XS-Q4" "ChristianAzinn"
    "snowflake-arctic-embed-xs-gguf" "snowflake-arctic-embed-xs--Q4_K_M.GGUF"
    "snowflake/snowflake-arctic-embed-xs",
  ggufEntry "MiniLM-L6-Q4" "second-state"
    "All-MiniLM-L6-v2-Embedding-GGUF" "all-MiniLM-L6-v2-Q4_K_M.gguf"
    "sentence-transformers/all-MiniLM-L6-v2",
  ggufEntry "MiniLM-L6-Q8" "second-state"
    "All-MiniLM-L6-v2-Embedding-GGUF" "all-MiniLM-L6-v2-Q8_0.gguf"
    "sentence-transformers/all-MiniLM-L6-v2",
  ggufEntry "Snowflake-S-Q4" "ChristianAzinn"
    "snowflake-arctic-embed-s-gguf" "snowflake-arctic-embed-s--Q4_K_M.GGUF"
    "snowflake/snowflake-arctic-embed-s",
  ggufEntry "E5-small-Q4" "ChristianAzinn"
    "e5-small-v2-gguf" "e5-small-v2.Q4_K_M.gguf"
    "intfloat/e5-small-v2",
  ggufEntry "GIST-small-Q4" "ChristianAzinn"
    "gist-small-embedding-v0-gguf" "gist-small-embedding-v0.Q4_K_M.gguf"
    "avsolatorio/GIST-small-Embedding-v0",
  ggufEntry "BGE-Reranker-v2-M3" "smarttasks"
    "bge-reranker-v2-m3-GGUF" "bge-reranker-v2-m3-Q4_K_M.gguf"
    "BAAI/bge-reranker-v2-m3",
  ggufEntry "BGE-Reranker-Base" "sinjab"
    "bge-reranker-base-Q4_K_M-GGUF" "bge-reranker-base-Q4_K_M.gguf"
    "BAAI/bge-reranker-base",
  ggufEntry "BGE-Reranker-Large" "sinjab"
    "bge-reranker-large-Q4_K_M-GGUF" "bge-reranker-large-Q4_K_M.gguf"
    "BAAI/bge-reranker-large",
  ggufEntry "Qwen3-Reranker-0.6B" "sinjab"
    "Qwen3-Reranker-0.6B-Q4_K_M-GGUF" "Qwen3-Reranker-0.6B-Q4_K_M.gguf"
    "Qwen/Qwen3-Reranker-0.6B",
  ggufEntry "Jina-Reranker-v1-Turbo-En" "sinjab"
    "jina-reranker-v1-turbo-en-Q8_0-GGUF" "jina-reranker-v1-turbo-en-Q8_0.gguf"
    "jinaai/jina-reranker-v1-turbo-en"]

/-- A file of a repository on the hub. -/
structure HubFile where
  organisation : Bytes
  repository : Bytes
  file : Bytes
  organisation_ne : organisation ≠ []
  repository_ne : repository ≠ []
  file_ne : file ≠ []
  noSlash : 47 ∉ organisation ∧ 47 ∉ repository ∧ 47 ∉ file

namespace HubFile

variable (f : HubFile)

def repo : Bytes := f.organisation ++ 47 :: f.repository

def shorthand : Bytes := f.repo ++ 47 :: f.file

def url : Bytes := ascii "https://huggingface.co/" ++ (f.repo ++ (ascii "/resolve/main/" ++ f.file))

end HubFile

/-- The bytes before the first occurrence of a pattern, and those behind it. -/
def splitFirst (pattern : Bytes) : Bytes → Option (Bytes × Bytes)
  | [] => if pattern = [] then some ([], []) else none
  | c :: rest =>
    if pattern.isPrefixOf (c :: rest) then some ([], (c :: rest).drop pattern.length)
    else (splitFirst pattern rest).map fun found => (c :: found.1, found.2)

/-- What a call asks for. -/
inductive GgufRequest
  | localFile (path : Bytes)
  | hubFile (repo filename : Bytes)
  | unsupportedUrl (input : Bytes)
  | unresolved (input : Bytes)
  deriving DecidableEq

/-- The repository and the file of a URL. -/
def hubParts (url : Bytes) : Option (Bytes × Bytes) :=
  (splitFirst (ascii "huggingface.co/") url).bind fun found =>
    splitFirst (ascii "/resolve/main/") found.2

namespace GgufNames

/-- `lembed_find_gguf_model` -/
def findGgufModel (name : Bytes) : Option GgufEntry :=
  ggufModels.find? fun info =>
    (after (RerankerLoaders.lowered name) (RerankerLoaders.lowered info.name)).isSome

variable (fileExists : Bytes → Bool)

/-- A path to a file that is there. -/
def isLocalFile (input : Bytes) : Bool :=
  5 < input.length && (ascii ".gguf").isSuffixOf (RerankerLoaders.lowered input) &&
    fileExists input

/-- `<repo>/<filename>` -/
def shorthandRequest (input : Bytes) : GgufRequest :=
  match splitFirst (ascii "/") input with
  | some (repo, filename) =>
    if repo ≠ [] ∧ filename ≠ [] then .hubFile repo filename else .unresolved input
  | none => .unresolved input

/-- `lembed_resolve_gguf_path`, up to the file that it ensures. -/
def resolveGgufPath (input : Bytes) : GgufRequest :=
  if isLocalFile fileExists input then .localFile input
  else if (ascii "http://").isPrefixOf input || (ascii "https://").isPrefixOf input then
    match hubParts input with
    | some (repo, filename) => .hubFile repo filename
    | none => .unsupportedUrl input
  else
    match (findGgufModel input).bind fun info => hubParts info.ggufUrl with
    | some (repo, filename) => .hubFile repo filename
    | none => shorthandRequest input

/-- `resolve_gguf_model`, up to the file that it ensures. -/
def resolveGgufModel (modelName : Bytes) : GgufRequest :=
  match findGgufModel modelName with
  | some info => .hubFile info.modelCode info.ggufUrl
  | none => .unresolved modelName

-- ---------------------------------------------------------------------------
-- Spellings
-- ---------------------------------------------------------------------------

/-- The ways to name a file of the hub. -/
inductive Spelling
  | shorthand (f : HubFile)
  | url (f : HubFile)
  | registered (entry : GgufEntry)
  | registeredModel (entry : GgufEntry)

namespace Spelling

/-- The file that is meant. -/
def Names : Spelling → HubFile → Prop
  | .shorthand f, wanted | .url f, wanted => wanted = f
  | .registered entry, wanted | .registeredModel entry, wanted => entry.ggufUrl = wanted.url

/-- The string goes by no file and by no entry of the registry, or else it is an entry's. -/
def Unclaimed : Spelling → Prop
  | .shorthand f => fileExists f.shorthand = false ∧ findGgufModel f.shorthand = none
  | .url f => fileExists f.url = false ∧ findGgufModel f.url = none
  | .registered entry | .registeredModel entry => entry ∈ ggufModels

def request : Spelling → GgufRequest
  | .shorthand f => resolveGgufPath fileExists f.shorthand
  | .url f => resolveGgufPath fileExists f.url
  | .registered entry => resolveGgufPath fileExists entry.name
  | .registeredModel entry => resolveGgufModel entry.name

/-- The file that is meant is the one that is asked for. -/
def Right (s : Spelling) : Prop :=
  ∃ f, s.Names f ∧ s.request fileExists = .hubFile f.repo f.file

/-- The URL, or a registry name where the URL of the entry is taken apart. -/
def TakesUrlApart : Spelling → Prop
  | .url _ | .registered _ => True
  | .shorthand _ | .registeredModel _ => False

end Spelling

-- ---------------------------------------------------------------------------
-- Taking a URL apart
-- ---------------------------------------------------------------------------

theorem splitFirst_self (c : UInt8) (pattern rest : Bytes) :
    splitFirst (c :: pattern) (c :: pattern ++ rest) = some ([], rest) := by
  rw [List.cons_append, splitFirst, ← List.cons_append, if_pos, List.drop_left]
  exact List.isPrefixOf_iff_prefix.mpr (List.prefix_append _ _)

/-- The search passes over what cannot start the pattern. -/
theorem splitFirst_skip {skipped : Bytes} (hskip : c ∉ skipped) (pattern rest : Bytes) :
    splitFirst (c :: pattern) (skipped ++ rest) =
      (splitFirst (c :: pattern) rest).map fun found => (skipped ++ found.1, found.2) := by
  induction skipped with
  | nil => simp
  | cons b skipped ih =>
    have hb := List.ne_of_not_mem_cons hskip
    rw [List.cons_append, splitFirst, if_neg (by simp [hb]),
      ih (List.not_mem_of_not_mem_cons hskip), Option.map_map]
    rfl

/-- The organisation does not end where a repository begins. -/
theorem notPrefix_resolve {repository rest : Bytes} (h : 47 ∉ repository) :
    (ascii "/resolve/main/").isPrefixOf (47 :: repository ++ (ascii "/resolve/main/" ++ rest)) =
      false := by
  rw [Bool.eq_false_iff]
  intro hprefix
  obtain ⟨tail, htail⟩ := List.isPrefixOf_iff_prefix.mp hprefix
  have hcut : ascii "resolve" ++ 47 :: (ascii "main/" ++ tail) =
      repository ++ 47 :: (ascii "resolve/main/" ++ rest) := by
    exact (List.cons.inj htail).2
  obtain ⟨-, hmain⟩ := append_separator (by decide) h hcut
  exact absurd (List.cons.inj hmain).1 (by decide)

theorem hubParts_url (f : HubFile) : hubParts f.url = some (f.repo, f.file) := by
  have hhost : splitFirst (ascii "huggingface.co/") f.url =
      some (ascii "https://", f.repo ++ (ascii "/resolve/main/" ++ f.file)) := by
    rfl
  obtain ⟨horganisation, hrepository, -⟩ := f.noSlash
  have hpattern : ascii "/resolve/main/" = 47 :: ascii "resolve/main/" := by rfl
  have hself := splitFirst_self 47 (ascii "resolve/main/") f.file
  have hrest : splitFirst (ascii "/resolve/main/")
      (47 :: f.repository ++ (ascii "/resolve/main/" ++ f.file)) =
        some (47 :: f.repository, f.file) := by
    rw [List.cons_append, splitFirst, ← List.cons_append, notPrefix_resolve hrepository,
      if_neg Bool.false_ne_true, hpattern, splitFirst_skip hrepository, hself]
    simp
  rw [hubParts, hhost, Option.bind_some, HubFile.repo, List.append_assoc]
  rw [hpattern] at hrest ⊢
  rw [splitFirst_skip horganisation, hrest]
  rfl

-- ---------------------------------------------------------------------------
-- What each spelling asks for
-- ---------------------------------------------------------------------------

variable {fileExists : Bytes → Bool}

theorem resolve_url {f : HubFile} (h : fileExists f.url = false) :
    resolveGgufPath fileExists f.url = .hubFile f.repo f.file := by
  have hurl : (ascii "https://").isPrefixOf f.url = true := by rfl
  rw [resolveGgufPath, isLocalFile, h, Bool.and_false, if_neg Bool.false_ne_true, hurl,
    Bool.or_true, if_pos rfl, hubParts_url]

/-- What has a segment between its first two slashes is no URL. -/
theorem shorthand_noScheme (f : HubFile) {scheme : Bytes} (h : 47 ∉ scheme) :
    (scheme ++ [47, 47]).isPrefixOf f.shorthand = false := by
  rw [Bool.eq_false_iff]
  intro hprefix
  obtain ⟨tail, htail⟩ := List.isPrefixOf_iff_prefix.mp hprefix
  have hcut : scheme ++ 47 :: (47 :: tail) =
      f.organisation ++ 47 :: (f.repository ++ 47 :: f.file) := by
    simpa [HubFile.shorthand, HubFile.repo] using htail
  obtain ⟨-, hrepository⟩ := append_separator h f.noSlash.1 hcut
  cases hname : f.repository with
  | nil => exact f.repository_ne hname
  | cons c rest =>
    rw [hname, List.cons_append] at hrepository
    have hslash : 47 ∈ f.repository := by
      rw [hname, ← (List.cons.inj hrepository).1]
      exact List.mem_cons_self
    exact f.noSlash.2.1 hslash

/-- The shorthand is cut behind the organisation. -/
theorem resolve_shorthand {f : HubFile} (hfile : fileExists f.shorthand = false)
    (hfind : findGgufModel f.shorthand = none) :
    resolveGgufPath fileExists f.shorthand =
      .hubFile f.organisation (f.repository ++ 47 :: f.file) := by
  have hhttp : (ascii "http://").isPrefixOf f.shorthand = false :=
    shorthand_noScheme f (show 47 ∉ ascii "http:" by decide)
  have hhttps : (ascii "https://").isPrefixOf f.shorthand = false :=
    shorthand_noScheme f (show 47 ∉ ascii "https:" by decide)
  have hcut : splitFirst (ascii "/") f.shorthand =
      some (f.organisation, f.repository ++ 47 :: f.file) := by
    have hself := splitFirst_self 47 [] (f.repository ++ 47 :: f.file)
    rw [HubFile.shorthand, HubFile.repo, List.append_assoc]
    show splitFirst [47] (f.organisation ++ ([47] ++ (f.repository ++ 47 :: f.file))) = _
    rw [splitFirst_skip f.noSlash.1, hself]
    simp
  rw [resolveGgufPath, isLocalFile, hfile, Bool.and_false, if_neg Bool.false_ne_true, hhttp,
    hhttps, Bool.or_self, if_neg Bool.false_ne_true, hfind, Option.bind_none]
  dsimp only
  rw [shorthandRequest, hcut]
  dsimp only
  rw [if_pos ⟨f.organisation_ne, by simp⟩]

/-- A registry name is no path and no URL, and finds its own entry. -/
theorem registry_names : ∀ entry ∈ ggufModels,
    (ascii ".gguf").isSuffixOf (RerankerLoaders.lowered entry.name) = false ∧
      (ascii "http://").isPrefixOf entry.name = false ∧
      (ascii "https://").isPrefixOf entry.name = false ∧
      findGgufModel entry.name = some entry := by
  decide +kernel

theorem ggufEntry_hub {name organisation repository file modelCode : String}
    (hne : ascii organisation ≠ [] ∧ ascii repository ≠ [] ∧ ascii file ≠ [])
    (hslash : 47 ∉ ascii organisation ∧ 47 ∉ ascii repository ∧ 47 ∉ ascii file) :
    ∃ f : HubFile, (ggufEntry name organisation repository file modelCode).ggufUrl = f.url := by
  refine ⟨⟨ascii organisation, ascii repository, ascii file, hne.1, hne.2.1, hne.2.2, hslash⟩, ?_⟩
  simp only [ggufEntry, HubFile.url, HubFile.repo, List.append_assoc, List.cons_append]
  rfl

theorem registry_urls {entry : GgufEntry} (h : entry ∈ ggufModels) :
    ∃ f : HubFile, entry.ggufUrl = f.url := by
  simp only [ggufModels, List.mem_cons, List.not_mem_nil, or_false] at h
  rcases h with rfl | rfl | rfl | rfl | rfl | rfl | rfl | rfl | rfl | rfl | rfl <;>
    exact ggufEntry_hub (by decide) (by decide)

theorem resolve_registered {entry : GgufEntry} (h : entry ∈ ggufModels) {f : HubFile}
    (hurl : entry.ggufUrl = f.url) :
    resolveGgufPath fileExists entry.name = .hubFile f.repo f.file := by
  obtain ⟨hsuffix, hhttp, hhttps, hfind⟩ := registry_names entry h
  rw [resolveGgufPath, isLocalFile, hsuffix, Bool.and_false, Bool.false_and,
    if_neg Bool.false_ne_true, hhttp, hhttps, Bool.or_self, if_neg Bool.false_ne_true, hfind,
    Option.bind_some, hurl, hubParts_url]

/-- The URL is longer than the name of the file that it ends in. -/
theorem file_ne_url (f : HubFile) : f.file ≠ f.url := by
  intro h
  have hlength := congrArg List.length h
  rw [HubFile.url, List.length_append, List.length_append, List.length_append] at hlength
  have hhost : (ascii "https://huggingface.co/").length = 23 := by rfl
  omega

theorem organisation_ne_repo (f : HubFile) : f.organisation ≠ f.repo := by
  intro h
  have hlength := congrArg List.length h
  rw [HubFile.repo, List.length_append, List.length_cons] at hlength
  omega

theorem right_iff {s : Spelling} (h : s.Unclaimed fileExists) :
    s.Right fileExists ↔ s.TakesUrlApart := by
  cases s with
  | shorthand f =>
    refine ⟨fun ⟨f', hf', hrequest⟩ => ?_, False.elim⟩
    obtain rfl : f' = f := hf'
    rw [Spelling.request, resolve_shorthand h.1 h.2] at hrequest
    exact organisation_ne_repo f' (GgufRequest.hubFile.inj hrequest).1
  | url f => exact ⟨fun _ => trivial, fun _ => ⟨f, rfl, resolve_url h.1⟩⟩
  | registered entry =>
    obtain ⟨f, hurl⟩ := registry_urls h
    exact ⟨fun _ => trivial, fun _ => ⟨f, hurl, resolve_registered h hurl⟩⟩
  | registeredModel entry =>
    refine ⟨fun ⟨f, hurl, hrequest⟩ => ?_, False.elim⟩
    obtain ⟨-, -, -, hfind⟩ := registry_names entry h
    rw [Spelling.request, resolveGgufModel, hfind] at hrequest
    have hfile := (GgufRequest.hubFile.inj hrequest).2
    exact file_ne_url f (hfile.symm.trans hurl)

/-- `org/repo/model.gguf` -/
def sampleFile : HubFile where
  organisation := ascii "org"
  repository := ascii "repo"
  file := ascii "model.gguf"
  organisation_ne := by decide
  repository_ne := by decide
  file_ne := by decide
  noSlash := by decide

/-- Where there are no files the URL asks for the file it names. -/
theorem sampleUrl_right : (Spelling.url sampleFile).Right fun _ => false := by
  have hfree : (Spelling.url sampleFile).Unclaimed fun _ => false := ⟨rfl, by decide +kernel⟩
  exact (right_iff hfree).mpr trivial

/-- The shorthand asks `org` for `repo/model.gguf`. -/
theorem spellings_disagree :
    ¬ ∀ (fileExists : Bytes → Bool) (s : Spelling), s.Unclaimed fileExists →
      s.Right fileExists := by
  intro h
  have hfree : findGgufModel sampleFile.shorthand = none := by decide +kernel
  obtain ⟨f, rfl, hrequest⟩ := h (fun _ => false) (.shorthand sampleFile) ⟨rfl, hfree⟩
  have hasked : (Spelling.shorthand sampleFile).request (fun _ => false) =
      .hubFile (ascii "org") (ascii "repo/model.gguf") := by decide +kernel
  rw [hasked] at hrequest
  exact absurd hrequest (by decide)

end GgufNames

end LibEmbedding
